import Mathlib.Data.Nat.Digits.Defs
import SimpleVm.Assembler.Lexemes
import SimpleVm.Assembler.Parser

/-!
# Integer literals

A literal has any number of digits. `strtol` stops at the limits of 64 bits
and the value that is kept has 32; neither tells that it changed the number.
-/

namespace SimpleVm.Scanner

/-! ## The numbers that texts stand for -/

/-- The number with these digits, the first one being the highest. -/
def number (base : ℕ) (digits : List UInt8) : ℕ :=
  Nat.ofDigits base (digits.reverse.map digitValue)

def decimalNumber : List UInt8 → ℤ
  | 45 :: digits => -number 10 digits
  | digits => number 10 digits

theorem foldl_digitValue (base : ℕ) (digits : List UInt8) :
    digits.foldl (fun n b => base * n + digitValue b) 0 = number base digits := by
  induction digits using List.reverseRecOn with
  | nil => rfl
  | append_singleton digits b ih =>
      have hlast : number base (digits ++ [b]) = digitValue b + base * number base digits := by
        simp [number, Nat.ofDigits_cons]
      rw [List.foldl_append, ih, hlast, Nat.add_comm]
      rfl

theorem strtolDigits_eq (base : ℕ) (digits : List UInt8) :
    strtolDigits base digits = min (2 ^ 63 - 1) (number base digits : ℤ) := by
  rw [strtolDigits, foldl_digitValue]

/-! ## What is scanned as a literal -/

def intPattern : Regex UInt8 := .alt (.seq (.opt (byte 45)) decimal) (byte 48)

def uintPattern : Regex UInt8 := sequence [word "0x", .plus hexDigit]

theorem matches_of_lexeme (pre : List (LexRule UInt8 Action)) (rule : LexRule UInt8 Action)
    {post : List (LexRule UInt8 Action)} {c : UInt8} {input : List UInt8}
    (hrules : initialRules = pre ++ rule :: post)
    (hother : ∀ r ∈ pre ++ post, r.action ≠ rule.action) (hecho : rule.action ≠ .echo)
    (h : (lexeme .INITIAL c input).2 = rule.action) :
    rule.pattern.Matches (yytext .INITIAL c input) := by
  have hbest : ∃ n, firstLongest initialRules (c :: input) = some (n + 1, rule.action) ∧
      (lexeme .INITIAL c input).1 = n := by
    unfold lexeme at h ⊢
    split at h
    · next n action heq => exact ⟨n, heq.trans (congrArg (fun a => some (n + 1, a)) h), rfl⟩
    · exact absurd h.symm hecho
  obtain ⟨n, hbest, hn⟩ := hbest
  obtain ⟨r, hr, hlong, hact⟩ := exists_mem_of_firstLongest hbest
  have hmatch := (Regex.matches_of_longest hlong).2
  rw [List.take_succ_cons, ← hn] at hmatch
  rw [hrules, List.mem_append, List.mem_cons] at hr
  rcases hr with hr | rfl | hr
  · exact absurd hact (hother r (List.mem_append_left _ hr))
  · exact hmatch
  · exact absurd hact (hother r (List.mem_append_right _ hr))

theorem matches_intPattern {c : UInt8} {input : List UInt8}
    (h : (lexeme .INITIAL c input).2 = .intLiteral) :
    intPattern.Matches (yytext .INITIAL c input) :=
  matches_of_lexeme (keywordRules ++ registerRules ++ punctRules) ⟨intPattern, .intLiteral⟩
    rfl (by decide) (by decide) h

theorem matches_uintPattern {c : UInt8} {input : List UInt8}
    (h : (lexeme .INITIAL c input).2 = .uintLiteral) :
    uintPattern.Matches (yytext .INITIAL c input) :=
  matches_of_lexeme (keywordRules ++ registerRules ++ punctRules ++ [⟨intPattern, .intLiteral⟩])
    ⟨uintPattern, .uintLiteral⟩ rfl (by decide) (by decide) h

/-- A decimal literal is a zero, or digits that begin with no zero and may have a sign. -/
theorem intLiteral_cases {c : UInt8} {input : List UInt8}
    (h : (lexeme .INITIAL c input).2 = .intLiteral) :
    yytext .INITIAL c input = [48] ∨ ∃ sign d digits,
      yytext .INITIAL c input = sign ++ d :: digits ∧ (sign = [] ∨ sign = [45]) ∧
        range 49 57 d = true ∧ ∀ b ∈ digits, range 48 57 b = true := by
  rcases Regex.matches_alt.mp (matches_intPattern h) with hsigned | hzero
  · obtain ⟨sign, text, heq, hsign, hdecimal⟩ := Regex.matches_seq.mp hsigned
    obtain ⟨first, digits, rfl, hfirst, hdigits⟩ := Regex.matches_seq.mp hdecimal
    obtain ⟨d, rfl, hd⟩ := Regex.matches_one.mp hfirst
    refine Or.inr ⟨sign, d, digits, heq, ?_, hd, Regex.matches_star_one.mp hdigits⟩
    rcases Regex.matches_opt.mp hsign with hminus | hnone
    · obtain ⟨b, rfl, hb⟩ := Regex.matches_one.mp hminus
      exact Or.inr (by rw [eq_of_fold rfl rfl hb])
    · exact Or.inl hnone
  · obtain ⟨b, heq, hb⟩ := Regex.matches_one.mp hzero
    exact Or.inl (by rw [heq, eq_of_fold rfl rfl hb])

/-- A hexadecimal literal has digits behind `0x`. -/
theorem uintLiteral_cases {c : UInt8} {input : List UInt8}
    (h : (lexeme .INITIAL c input).2 = .uintLiteral) :
    ∃ x digits, yytext .INITIAL c input = 48 :: x :: digits ∧ fold x = 120 ∧ digits ≠ [] ∧
      ∀ b ∈ digits, isHexDigit b = true := by
  have hword : uintPattern =
      .seq (.seq (byte 48) (.seq (byte 120) .empty)) (.seq (.plus hexDigit) .empty) := rfl
  have hmatch := matches_uintPattern h
  rw [hword] at hmatch
  obtain ⟨mark, text, heq, hmark, htext⟩ := Regex.matches_seq.mp hmatch
  obtain ⟨digits, more, rfl, hdigits, hmore⟩ := Regex.matches_seq.mp htext
  obtain rfl := Regex.matches_empty.mp hmore
  obtain ⟨zero, letter, rfl, hzero, hletter⟩ := Regex.matches_seq.mp hmark
  obtain ⟨one, more, rfl, hone, hmore⟩ := Regex.matches_seq.mp hletter
  obtain rfl := Regex.matches_empty.mp hmore
  obtain ⟨b, rfl, hb⟩ := Regex.matches_one.mp hzero
  obtain ⟨x, rfl, hx⟩ := Regex.matches_one.mp hone
  obtain ⟨hne, hall⟩ := Regex.matches_plus_one.mp hdigits
  obtain rfl : b = 48 := eq_of_fold rfl rfl hb
  refine ⟨x, digits, ?_, eq_of_beq hx, hne, hall⟩
  rw [heq]
  simp

/-! ## Literals and their data items -/

/-- A lexeme that the scanner takes for an integer, with the text behind it. -/
structure IntegerLexeme where
  c : UInt8
  input : List UInt8
  hex : Bool
  scanned : (lexeme .INITIAL c input).2 = if hex then .uintLiteral else .intLiteral

namespace IntegerLexeme

variable (l : IntegerLexeme)

def text : List UInt8 := yytext .INITIAL l.c l.input

def value : ℤ := if l.hex then number 16 (l.text.drop 2) else decimalNumber l.text

def InRange : Prop :=
  if l.hex then l.value < 2 ^ 32 else -2 ^ 31 ≤ l.value ∧ l.value < 2 ^ 31

theorem not_reported : (lexeme .INITIAL l.c l.input).2 ≠ .invalidCharacter := by
  rw [l.scanned]
  split <;> decide

end IntegerLexeme

/-- The number in the token of a literal, and the item that `index_constant` makes of it. -/
def literalConstant : Token → Option Parser.IndexConstant
  | .intLiteral ival => some (.int ival)
  | .uintLiteral uval => some (.uint uval)
  | _ => none

/-- The number in the union of an item. -/
def itemNumber : DataItem → Option ℤ
  | .integer ival => some ival.toInt
  | .unsigned uval => some uval.toNat
  | .float _ => none
  | .string _ => none

/-- The item made of the token that the scanner returns. -/
def literalItem (strtof : CString → UInt32) (s : ScannerState) (l : IntegerLexeme) :
    Option DataItem := do
  let token ← ((lexer strtof).step { s with start := .INITIAL } l.c l.input).2.1
  let c ← literalConstant token
  some (Parser.indexItem c)

/-- The scanner reports an error, or the item has the value of the lexeme. -/
def Faithful (strtof : CString → UInt32) (s : ScannerState) (l : IntegerLexeme) : Prop :=
  (lexeme .INITIAL l.c l.input).2 = .invalidCharacter ∨
    (literalItem strtof s l).bind itemNumber = some l.value

theorem literalItem_hex (strtof : CString → UInt32) (s : ScannerState) {l : IntegerLexeme}
    (h : l.hex = true) : literalItem strtof s l =
      some (.unsigned (UInt32.ofNat (strtolDigits 16 (l.text.drop 2)).toNat)) := by
  have haction : (lexeme .INITIAL l.c l.input).2 = .uintLiteral := l.scanned.trans (if_pos h)
  simp only [literalItem, lexer, haction]
  rfl

theorem literalItem_decimal (strtof : CString → UInt32) (s : ScannerState) {l : IntegerLexeme}
    (h : l.hex = false) :
    literalItem strtof s l = some (.integer (Int32.ofInt (strtolDecimal l.text))) := by
  have haction : (lexeme .INITIAL l.c l.input).2 = .intLiteral :=
    l.scanned.trans (by rw [h]; rfl)
  simp only [literalItem, lexer, haction]
  rfl

theorem strtolDecimal_eq {text : List UInt8} (h₀ : -2 ^ 31 ≤ decimalNumber text)
    (h₁ : decimalNumber text < 2 ^ 31) : strtolDecimal text = decimalNumber text := by
  unfold strtolDecimal decimalNumber at *
  split
  · simp only [foldl_digitValue] at *
    omega
  · next hsign =>
      split at h₀
      · exact absurd rfl (hsign _)
      · simp only [strtolDigits_eq] at *
        omega

theorem faithful_iff (strtof : CString → UInt32) (s : ScannerState) (l : IntegerLexeme) :
    Faithful strtof s l ↔ l.InRange := by
  rw [Faithful, or_iff_right l.not_reported]
  cases hhex : l.hex with
  | true =>
      have hvalue : l.value = number 16 (l.text.drop 2) := by rw [IntegerLexeme.value, if_pos hhex]
      have hnat := UInt32.toNat_lt (UInt32.ofNat (strtolDigits 16 (l.text.drop 2)).toNat)
      simp only [literalItem_hex strtof s hhex, Option.bind_some, itemNumber,
        IntegerLexeme.InRange, hhex, if_true, hvalue, Option.some.injEq, Nat.cast_inj]
      constructor
      · intro heq
        omega
      · intro hlt
        have hnum : (strtolDigits 16 (l.text.drop 2)).toNat = number 16 (l.text.drop 2) := by
          rw [strtolDigits_eq]
          omega
        have hsize : number 16 (l.text.drop 2) < UInt32.size := by exact_mod_cast hlt
        rw [hnum]
        exact UInt32.toNat_ofNat_of_lt' hsize
  | false =>
      have hvalue : l.value = decimalNumber l.text := by
        rw [IntegerLexeme.value, hhex]
        rfl
      have hlow := Int32.le_toInt (Int32.ofInt (strtolDecimal l.text))
      have hhigh := Int32.toInt_lt (Int32.ofInt (strtolDecimal l.text))
      simp only [literalItem_decimal strtof s hhex, Option.bind_some, itemNumber,
        IntegerLexeme.InRange, hhex, Bool.false_eq_true, if_false, hvalue, Option.some.injEq]
      constructor
      · intro heq
        rw [← heq]
        exact ⟨hlow, hhigh⟩
      · rintro ⟨h₀, h₁⟩
        rw [strtolDecimal_eq h₀ h₁]
        exact Int32.toInt_ofInt_of_le h₀ h₁

/-- Two literals have their values, and different items if these differ, exactly
when both values are within 32 bits. -/
theorem literals_faithful_iff (strtof : CString → UInt32) (s : ScannerState)
    (l l' : IntegerLexeme) :
    (Faithful strtof s l ∧ Faithful strtof s l' ∧
        (l.value ≠ l'.value → literalItem strtof s l ≠ literalItem strtof s l')) ↔
      l.InRange ∧ l'.InRange := by
  rw [faithful_iff, faithful_iff, ← and_assoc, and_iff_left_iff_imp]
  rintro ⟨h, h'⟩ hne hitem
  have hl := (faithful_iff strtof s l).mpr h
  have hl' := (faithful_iff strtof s l').mpr h'
  rw [Faithful, or_iff_right (IntegerLexeme.not_reported _)] at hl hl'
  rw [hitem, hl'] at hl
  exact hne (Option.some.inj hl).symm

/-- The literals `4294967296` and `0` give the same item. -/
theorem exists_same_item : ∃ l l' : IntegerLexeme,
    l.text = [52, 50, 57, 52, 57, 54, 55, 50, 57, 54] ∧ l'.text = [48] ∧
      ¬ Faithful (fun _ => 0) initial l ∧ l.value ≠ l'.value ∧
      literalItem (fun _ => 0) initial l = literalItem (fun _ => 0) initial l' := by
  refine ⟨⟨52, [50, 57, 52, 57, 54, 55, 50, 57, 54], false, by decide⟩,
    ⟨48, [], false, by decide⟩, by decide, by decide, ?_,
    by decide, by decide⟩
  rintro (herror | hvalue)
  · exact absurd herror (by decide)
  · exact absurd hvalue (by decide)

end SimpleVm.Scanner
