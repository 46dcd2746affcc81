import SimpleVm.Assembler.Include
import SimpleVm.Assembler.Lexemes

/-!
# When the expansion is delivered

The rule for the end of a file does not go back to `INITIAL`. So the rest of
the including file is scanned as it should be when the included file ends
there, and a file that does not end there can be included in front of an
instruction, which is lost.
-/

namespace SimpleVm

namespace Scanner

theorem bareLexer_step {strtof : CString → UInt32} {s : ScannerState} {c : UInt8}
    {input : List UInt8} {n : ℕ} {action : Action} (h : lexeme s.start c input = (n, action)) :
    (bareLexer strtof).step s c input =
      (forget (perform strtof (c :: input.take n) s action).1,
        (perform strtof (c :: input.take n) s action).2, input.drop n) := by
  simp only [bareLexer, lexer, yytext, h]

/-! ## A directive for any name -/

/-- The digit of a number below sixteen. -/
def hexChar (n : ℕ) : UInt8 := if n < 10 then UInt8.ofNat (48 + n) else UInt8.ofNat (87 + n)

/-- The text `\xhh`. -/
def hexEscape (c : UInt8) : List UInt8 := [92, 120, hexChar (c.toNat / 16), hexChar (c.toNat % 16)]

/-- The text `nop`. -/
def nopText : List UInt8 := [110, 111, 112]

/-- The text `include"…"nop`, with every character of the name escaped. -/
def includeText (name : CString) : List UInt8 :=
  [105, 110, 99, 108, 117, 100, 101] ++ 34 :: (name.bytes.flatMap hexEscape ++ 34 :: nopText)

theorem hexChar_facts : ∀ n : Fin 16,
    isHexDigit (hexChar n) = true ∧ digitValue (hexChar n) = n := by
  decide

theorem charOf_hexEscape (c : UInt8) : charOf (strtolDigits 16 ((hexEscape c).drop 2)) = c := by
  have hlt := c.toNat_lt
  have hhigh := (hexChar_facts ⟨c.toNat / 16, by omega⟩).2
  have hlow := (hexChar_facts ⟨c.toNat % 16, by omega⟩).2
  simp only at hhigh hlow
  have hdrop : (hexEscape c).drop 2 = [hexChar (c.toNat / 16), hexChar (c.toNat % 16)] := rfl
  have hvalue : strtolDigits 16 ((hexEscape c).drop 2) = (c.toNat : ℤ) := by
    simp only [hdrop, strtolDigits, List.foldl_cons, List.foldl_nil, hhigh, hlow]
    omega
  have hmod : (c.toNat : ℤ) % 256 = c.toNat := by omega
  rw [hvalue, charOf, hmod, Int.toNat_natCast, UInt8.ofNat_toNat]

theorem longest_hexEscape {b : UInt8} (hb : isHexDigit b = false) (c : UInt8)
    (rest : List UInt8) : hexRule.pattern.longest (hexEscape c ++ b :: rest) = some 4 := by
  have hlt := c.toNat_lt
  have hhigh := (hexChar_facts ⟨c.toNat / 16, by omega⟩).1
  have hlow := (hexChar_facts ⟨c.toNat % 16, by omega⟩).1
  simp only at hhigh hlow
  have hmark : (hexRule.pattern.deriv 92).deriv 120 = sequence [hexDigit,
      .opt (.seq hexDigit (.opt (.seq hexDigit (.opt hexDigit))))] := rfl
  simp only [hexEscape, List.cons_append, List.nil_append]
  rw [Regex.longest_cons, Regex.longest_cons, hmark]
  simp [sequence, hexDigit, Regex.opt, Regex.longest_cons, Regex.deriv, Regex.nullable,
    Regex.seqNever, Regex.altNever, hhigh, hlow, hb]

/-- The other rules know what they match behind the `x`. -/
theorem other_facts : ∀ rule ∈ dquoteRules.take 11 ++ dquoteRules.drop 12,
    (rule.pattern.after [92, 120]).isSettled ∧
      ∀ m ∈ rule.pattern.longest [92, 120], m < 4 := by
  decide

theorem lexeme_hexEscape (c b : UInt8) (hb : b ∈ [(92 : UInt8), 34]) (rest : List UInt8) :
    lexeme .DQUOTE 92 ((hexEscape c).tail ++ b :: rest) = (3, .appendHex) := by
  have hnodigit : isHexDigit b = false := by
    simp only [List.mem_cons, List.not_mem_nil, or_false] at hb
    rcases hb with rfl | rfl <;> rfl
  have hmatch : hexRule.pattern.longest (92 :: ((hexEscape c).tail ++ b :: rest)) = some 4 :=
    longest_hexEscape hnodigit c rest
  have hother : ∀ rule ∈ dquoteRules.take 11 ++ dquoteRules.drop 12, ∀ m,
      rule.pattern.longest (92 :: ((hexEscape c).tail ++ b :: rest)) = some m → m < 4 := by
    intro rule hrule m hm
    obtain ⟨hsettled, hshort⟩ := other_facts rule hrule
    have hsame := Regex.longest_append hsettled ((hexEscape c).drop 2 ++ b :: rest)
    exact hshort m (hsame.symm.trans hm)
  have hbest := firstLongest_eq hmatch
    (fun rule hrule => hother rule (List.mem_append_left _ hrule))
    (fun rule hrule m hm => (hother rule (List.mem_append_right _ hrule) m hm).le)
  have hrules : rules .DQUOTE = dquoteRules.take 11 ++ hexRule :: dquoteRules.drop 12 := rfl
  rw [lexeme, hrules, hbest]
  rfl

theorem step_hexEscape (strtof : CString → UInt32) (strbuf : List UInt8) (c b : UInt8)
    (hb : b ∈ [(92 : UInt8), 34]) (rest : List UInt8) :
    (bareLexer strtof).step ⟨.DQUOTE, strbuf⟩ 92 ((hexEscape c).tail ++ b :: rest) =
      (⟨.DQUOTE, strbuf ++ [c]⟩, none, b :: rest) := by
  have hescape : 92 :: (hexEscape c).tail = hexEscape c := rfl
  have htake : ((hexEscape c).tail ++ b :: rest).take 3 = (hexEscape c).tail := rfl
  have hdrop : ((hexEscape c).tail ++ b :: rest).drop 3 = b :: rest := rfl
  rw [bareLexer_step (lexeme_hexEscape c b hb rest), htake, hdrop, hescape]
  simp only [perform, charOf_hexEscape, forget]

theorem runs_escapes (strtof : CString → UInt32) (strbuf bytes rest : List UInt8) :
    (bareLexer strtof).Runs ⟨.DQUOTE, strbuf⟩ (bytes.flatMap hexEscape ++ 34 :: rest) []
      ⟨.DQUOTE, strbuf ++ bytes⟩ (34 :: rest) := by
  induction bytes generalizing strbuf with
  | nil =>
      rw [List.append_nil]
      exact .refl _ _
  | cons c bytes ih =>
      have htail := ih (strbuf ++ [c])
      rw [List.append_assoc, List.singleton_append] at htail
      obtain ⟨b, left, hleft, hb⟩ : ∃ b left, bytes.flatMap hexEscape ++ 34 :: rest = b :: left ∧
          b ∈ [(92 : UInt8), 34] := by
        cases bytes with
        | nil => exact ⟨34, rest, rfl, by decide⟩
        | cons c' bytes => exact ⟨92, _, rfl, by decide⟩
      rw [hleft] at htail
      have hstep := step_hexEscape strtof strbuf c b hb left
      rw [List.flatMap_cons, List.append_assoc, hleft]
      exact .head (t := none) hstep htail

theorem runs_includeText (strtof : CString → UInt32) (name : CString) :
    (bareLexer strtof).Runs initial (includeText name) [.keyword .INCLUDE]
      ⟨.DQUOTE, name.bytes⟩ (34 :: nopText) := by
  have hescapes := runs_escapes strtof [] name.bytes nopText
  rw [List.nil_append] at hescapes
  have hquote : (bareLexer strtof).step initial 34
      (name.bytes.flatMap hexEscape ++ 34 :: nopText) =
        (⟨.DQUOTE, []⟩, none, name.bytes.flatMap hexEscape ++ 34 :: nopText) := by
    rw [bareLexer_step (lexeme_quote _)]
    rfl
  have hinclude : (bareLexer strtof).step initial 105 ([110, 99, 108, 117, 100, 101] ++
      34 :: (name.bytes.flatMap hexEscape ++ 34 :: nopText)) =
        (initial, some (.keyword .INCLUDE),
          34 :: (name.bytes.flatMap hexEscape ++ 34 :: nopText)) := by
    have hlexeme : lexeme .INITIAL 105 ([110, 99, 108, 117, 100, 101] ++
        34 :: (name.bytes.flatMap hexEscape ++ 34 :: nopText)) = (6, .ret (.keyword .INCLUDE)) :=
      lexeme_append (w := [110, 99, 108, 117, 100, 101, 34]) (by decide +kernel)
        (by decide +kernel) _
    rw [bareLexer_step hlexeme]
    rfl
  exact .head hinclude (.head (t := none) hquote hescapes)

theorem step_closeQuote (strtof : CString → UInt32) (name : CString) :
    (bareLexer strtof).step ⟨.DQUOTE, name.bytes⟩ 34 nopText =
      (initial, some (.strgLiteral name), nopText) := by
  have hlexeme : lexeme .DQUOTE 34 nopText = (0, .closeQuote) := by decide
  rw [bareLexer_step hlexeme]
  simp only [perform, CString.read_bytes]
  rfl

end Scanner

namespace FileIo

section

variable (fs : FileSystem) (strtof : CString → UInt32)

def EndsInitial (name : CString) : Prop :=
  ∀ text, sourceText fs name = some text → Scanner.endCondition strtof text = .INITIAL

variable {fs strtof}

def includer (name : CString) : FileT := ⟨CString.empty, 1, 1, Scanner.includeText name⟩

/-- The directive puts the named file in front of the instruction. -/
theorem reaches_includer {name : CString} {text : List UInt8}
    (htext : sourceText fs name = some text) (stack : List (List UInt8)) :
    (inclusion fs strtof).Reaches ⟨Scanner.initial, false, (includer name).buffer :: stack⟩
      [.keyword .INCLUDE, .strgLiteral name]
        ⟨Scanner.initial, false, text :: Scanner.nopText :: stack⟩ := by
  have hdirective : (inclusion fs strtof).Reaches
      ⟨Scanner.initial, false, (includer name).buffer :: stack⟩ [.keyword .INCLUDE]
        ⟨⟨.DQUOTE, name.bytes⟩, true, (34 :: Scanner.nopText) :: stack⟩ := by
    apply Inclusion.reaches_of_runs (Scanner.runs_includeText strtof name)
    exact .token rfl .nil
  have hlexeme := Scanner.step_closeQuote strtof name
  have hpush : (inclusion fs strtof).push true (.strgLiteral name) (Scanner.nopText :: stack) =
      some (text :: Scanner.nopText :: stack) :=
    congrArg (Option.map (· :: Scanner.nopText :: stack)) htext
  have hclose : (inclusion fs strtof).step
      ⟨⟨.DQUOTE, name.bytes⟩, true, (34 :: Scanner.nopText) :: stack⟩ =
        some (some (.strgLiteral name),
          ⟨Scanner.initial, false, text :: Scanner.nopText :: stack⟩) := by
    simp only [Inclusion.step, hlexeme, hpush, Option.map_some]
    rfl
  apply hdirective.trans
  exact .head hclose (.refl _)

end

/-- Nothing is found along the path, and `a` is the only file that can be opened. -/
def oneFile (text : List UInt8) : FileSystem where
  commonEnv := []
  fileExists _ := false
  fopen fn := if fn.bytes = [97] then some text else none

end FileIo

end SimpleVm
