import SimpleVm.Assembler.Comments
import SimpleVm.Assembler.Numbers
import SimpleVm.Assembler.StringLiterals

/-!
# Texts of a source

Every token can be written in some ways. Lexemes stand next to each other, or
with white space and comments between them, as long as the next byte does not
belong to the lexeme before it. The scanner finds the tokens in every such
text.
-/

namespace SimpleVm.Scanner

variable {strtof : CString → UInt32}

/-! ## Punctuation -/

/-- `-` begins a number and `/` a comment. -/
def EndsPunct (c : UInt8) (rest : List UInt8) : Prop :=
  ∀ x ∈ rest.head?, (c = 45 → range 48 57 x = false) ∧ (c = 47 → x ≠ 47 ∧ x ≠ 42)

def punctBytes : List UInt8 := [91, 93, 40, 41, 58, 61, 123, 125, 43, 45, 47, 42, 37, 44]

theorem lexeme_minus_sign {rest : List UInt8} (hrest : ∀ x ∈ rest.head?, range 48 57 x = false) :
    lexeme .INITIAL 45 rest = (0, .ret (.punct 45)) := by
  have hrules : rulesAfter 45 (rules .INITIAL) =
      [⟨.empty, .ret (.punct 45)⟩, ⟨decimal, .intLiteral⟩,
        ⟨.seq (.alt (byte 48) decimal) pointPart, .floatLiteral⟩,
        ⟨.empty, .invalidCharacter⟩] := rfl
  apply lexeme_of_firstLongest
  rw [hrules]
  apply firstLongest_stop rfl
  intro x hx
  have hdigit := hrest x hx
  have hnonzero : range 49 57 x = false := by
    rw [Bool.eq_false_iff] at hdigit ⊢
    intro h
    apply hdigit
    rw [range_eq_true] at h ⊢
    exact ⟨(show (48 : ℕ) ≤ 49 by omega).trans h.1, h.2⟩
  have hzero : (fold x == fold 48) = false := by
    apply fold_ne rfl rfl
    rintro rfl
    cases hdigit
  simp [rulesAfter, decimal, nonzeroDigit, byte, Regex.deriv, Regex.nullable, Regex.seqNever,
    Regex.altNever, hnonzero, hzero]

theorem lexeme_slash_sign {rest : List UInt8} (hrest : ∀ x ∈ rest.head?, x ≠ 47 ∧ x ≠ 42) :
    lexeme .INITIAL 47 rest = (0, .ret (.punct 47)) := by
  have hrules : rulesAfter 47 (rules .INITIAL) =
      [⟨.empty, .ret (.punct 47)⟩, ⟨.seq (byte 47) .empty, .begin .LCOMMENT⟩,
        ⟨.seq (byte 42) .empty, .begin .BCOMMENT⟩, ⟨.empty, .invalidCharacter⟩] := rfl
  apply lexeme_of_firstLongest
  rw [hrules]
  apply firstLongest_stop rfl
  intro x hx
  obtain ⟨hslash, hstar⟩ := hrest x hx
  simp [rulesAfter, byte, Regex.deriv, Regex.nullable, Regex.seqNever, fold_ne rfl rfl hslash,
    fold_ne rfl rfl hstar]

theorem lexeme_punctuation {c : UInt8} (hc : c ∈ punctBytes) {rest : List UInt8}
    (hrest : EndsPunct c rest) : lexeme .INITIAL c rest = (0, .ret (.punct c)) := by
  by_cases hminus : c = 45
  · subst hminus
    exact lexeme_minus_sign fun x hx => (hrest x hx).1 rfl
  by_cases hslash : c = 47
  · subst hslash
    exact lexeme_slash_sign fun x hx => (hrest x hx).2 rfl
  -- the list is small, and the type of the bytes is not
  have hfacts : punctBytes.all fun c => decide (c = 45 ∨ c = 47 ∨
      ((∀ rule ∈ rules .INITIAL, (rule.pattern.after [c]).isSettled) ∧
        firstLongest (rules .INITIAL) [c] = some (1, .ret (.punct c)))) := by decide +kernel
  rcases of_decide_eq_true (List.all_eq_true.mp hfacts c hc) with heq | heq | ⟨hsettled, hbest⟩
  · exact absurd heq hminus
  · exact absurd heq hslash
  · exact lexeme_append (w := []) hsettled hbest rest

/-! ## Literal strings -/

/-- What can stand behind a string: nothing that would make it go on in the next line. -/
def EndsString (rest : List UInt8) : Prop := (rest.dropWhile isBlank).head? ≠ some 92

/-- The start condition behind a quote. -/
inductive Quote : UInt8 → StartCondition → Prop
  | double : Quote 34 .DQUOTE
  | single : Quote 39 .SQUOTE

/-- A byte that stands for itself between the quotes. -/
def Plain (q b : UInt8) : Prop := b ≠ 92 ∧ b ≠ 10 ∧ b ≠ q

theorem lexeme_open {q : UInt8} {start : StartCondition} (hq : Quote q start)
    (input : List UInt8) : lexeme .INITIAL q input = (0, .openQuote start) := by
  cases hq with
  | double => exact lexeme_quote input
  | single => exact lexeme_of_firstLongest (firstLongest_stop rfl fun _ _ => rfl)

theorem lexeme_close_quote {q : UInt8} {start : StartCondition} (hq : Quote q start)
    {rest : List UInt8} (hrest : EndsString rest) : lexeme start q rest = (0, .closeQuote) := by
  have hrules : ∃ more, rulesAfter q (rules start) =
      [⟨.seq blanks (.seq (word "\\") more), .ignore⟩, ⟨.empty, .closeQuote⟩] := by
    cases hq with
    | double => exact ⟨_, rfl⟩
    | single => exact ⟨_, rfl⟩
  obtain ⟨more, hrules⟩ := hrules
  have hnone : (Regex.seq blanks (.seq (word "\\") more)).longest rest = none := by
    rw [Option.eq_none_iff_forall_ne_some]
    intro n hlong
    obtain ⟨before, u, hbefore, hblanks, hu⟩ :=
      Regex.matches_seq.mp (Regex.matches_of_longest hlong).2
    obtain ⟨slash, u, rfl, hslash, -⟩ := Regex.matches_seq.mp hu
    obtain rfl : slash = [92] := word_eq (by decide) hslash
    apply hrest
    rw [← List.take_append_drop n rest, hbefore, List.append_assoc,
      List.dropWhile_append_of_pos (blanks_matches hblanks)]
    rfl
  have hclose : firstLongest [⟨.empty, Action.closeQuote⟩] rest = some (0, .closeQuote) := by
    simp [firstLongest]
  apply lexeme_of_firstLongest
  rw [hrules, firstLongest, hnone, hclose]

theorem rulesAfter_squote {c : UInt8} (hc : Plain 39 c) :
    rulesAfter c (rules .SQUOTE) = [⟨.star (noneOf [92, 10, 39]), .appendText⟩] ∧
      rulesAfter c [⟨.star (noneOf [92, 10, 39]), .appendText⟩] =
        [⟨.star (noneOf [92, 10, 39]), Action.appendText⟩] := by
  obtain ⟨hback, hline, hquote⟩ := hc
  have hclass : (!([92, 10, 39].contains c)) = true := by simp [hback, hline, hquote]
  have hword (x : UInt8) (hx : (fold c == fold x) = false) (s : Regex UInt8) :
      (Regex.seq (byte x) s).deriv c = .never :=
    Regex.deriv_seq_never (by simp [byte, Regex.deriv, hx]) rfl s
  have hback' := hword 92 (fold_ne rfl rfl hback)
  have hline' := hword 10 (fold_ne rfl rfl hline)
  have hquote' := hword 39 (fold_ne rfl rfl hquote)
  have hpre : rulesAfter c (squoteRules.take 3) = [] := by
    apply rulesAfter_eq_nil
    simp only [squoteRules, List.take_succ_cons, List.take_zero, List.forall_mem_cons]
    exact ⟨Regex.deriv_seq_never (hquote' _) rfl _, hline' _, hback' _, List.forall_mem_nil _⟩
  have hpost : rulesAfter c (squoteRules.drop 4) = [] :=
    rulesAfter_eq_nil (List.forall_mem_singleton.mpr (hquote' _))
  have hsplit : rules .SQUOTE = squoteRules.take 3 ++
      (⟨.plus (noneOf [92, 10, 39]), .appendText⟩ :: squoteRules.drop 4) := rfl
  constructor
  · rw [hsplit, rulesAfter_append, hpre, noneOf,
      rulesAfter_plus_one (fun b => !([92, 10, 39].contains b)) hclass, hpost]
    rfl
  · exact rulesAfter_star_one (fun b => !([92, 10, 39].contains b)) hclass _ []

theorem lexeme_text {q : UInt8} {start : StartCondition} (hq : Quote q start) {c : UInt8}
    {w : List UInt8} (hw : ∀ b ∈ c :: w, Plain q b) (rest : List UInt8) :
    lexeme start c (w ++ q :: rest) = (w.length, .appendText) := by
  rw [List.forall_mem_cons] at hw
  cases hq with
  | double =>
      have hplain : ∀ b, Plain 34 b → isEscaped b = false := by
        intro b hb
        simp [isEscaped, hb.1, hb.2.1, hb.2.2]
      refine lexeme_plain (hplain c hw.1) (fun b hb => hplain b (hw.2 b hb)) ?_
      intro x hx
      obtain rfl := Option.some.inj hx
      rfl
  | single =>
      apply lexeme_of_firstLongest
      rw [(rulesAfter_squote hw.1).1]
      have htest : ∀ b, Plain 39 b → (!([92, 10, 39].contains b)) = true := by
        intro b hb
        simp [hb.1, hb.2.1, hb.2.2]
      have hloop : ∀ b, (!([92, 10, 39].contains b)) = true →
          rulesAfter b [⟨.star (noneOf [92, 10, 39]), Action.appendText⟩] =
            [⟨.star (noneOf [92, 10, 39]), Action.appendText⟩] := fun b hb =>
        rulesAfter_star_one (fun b => !([92, 10, 39].contains b)) hb _ []
      refine firstLongest_run hloop rfl (fun b hb => htest b (hw.2 b hb)) ?_
      intro x hx
      obtain rfl := Option.some.inj hx
      rfl

theorem runs_string {q : UInt8} {start : StartCondition} (hq : Quote q start) {strg : CString}
    (hplain : ∀ b ∈ strg.bytes, Plain q b) {rest : List UInt8} (hrest : EndsString rest)
    (strbuf : List UInt8) :
    (lexer strtof).Runs ⟨.INITIAL, strbuf⟩ (q :: (strg.bytes ++ q :: rest)) [.strgLiteral strg]
      ⟨.INITIAL, strg.bytes⟩ rest := by
  have hopen : (lexer strtof).step ⟨.INITIAL, strbuf⟩ q (strg.bytes ++ q :: rest) =
      (⟨start, []⟩, none, strg.bytes ++ q :: rest) := by
    rw [lexer_step (lexeme_open hq _)]
    rfl
  have hclose : (lexer strtof).step ⟨start, strg.bytes⟩ q rest =
      (⟨.INITIAL, strg.bytes⟩, some (.strgLiteral strg), rest) := by
    rw [lexer_step (lexeme_close_quote hq hrest), perform, CString.read_bytes]
    rfl
  have hend : (lexer strtof).Runs ⟨start, strg.bytes⟩ (q :: rest) [.strgLiteral strg]
      ⟨.INITIAL, strg.bytes⟩ rest := .head hclose (.refl _ _)
  refine .head (t := none) hopen ?_
  obtain ⟨bytes, hnul⟩ := strg
  cases bytes with
  | nil => exact hend
  | cons c w =>
      have htext : (lexer strtof).step ⟨start, []⟩ c (w ++ q :: rest) =
          (⟨start, c :: w⟩, none, q :: rest) := by
        have happend : appendString [] (CString.read (c :: w)) = c :: w :=
          congrArg CString.bytes (CString.read_bytes ⟨c :: w, hnul⟩)
        rw [lexer_step (lexeme_text hq hplain rest), List.take_left, List.drop_left, perform,
          happend]
      exact .head (t := none) htext hend

/-! ## Fillers -/

/-- White space and comments, in any order. -/
inductive Filler : List UInt8 → Prop
  | nil : Filler []
  | space {b : UInt8} {g : List UInt8} (hb : isSpace b = true) (hg : Filler g) : Filler (b :: g)
  | comment {c g : List UInt8} (hc : Comment c) (hg : Filler g) : Filler (c ++ g)

theorem Filler.scan (strtof : CString → UInt32) {g : List UInt8} (hg : Filler g)
    (strbuf rest : List UInt8) :
    (lexer strtof).scan ⟨.INITIAL, strbuf⟩ (g ++ rest) =
      (lexer strtof).scan ⟨.INITIAL, strbuf⟩ rest := by
  induction hg with
  | nil => rfl
  | @space b g hb hg ih =>
      have hgap : ∀ x ∈ [b], isSpace x = true := List.forall_mem_singleton.mpr hb
      rw [← ih]
      exact scan_gap strbuf hgap (g ++ rest)
  | @comment c g hc hg ih =>
      rw [List.append_assoc, (hc.runs strbuf (g ++ rest)).scan, ih]
      rfl

/-! ## Tokens -/

/-- The bytes are one way to write the token in front of the rest. -/
inductive Spells (strtof : CString → UInt32) : List UInt8 → Token → List UInt8 → Prop
  | reserved {r : ReservedWord} {s : String} {c : UInt8} {w rest : List UInt8}
      (hr : r ∈ reservedWords) (hs : s ∈ r.spellings) (hfold : (c :: w).map fold = bytesOf s)
      (hrest : EndsWord rest) : Spells strtof (c :: w) r.token rest
  | name {strg : CString} {c : UInt8} {w rest : List UInt8} (hbytes : strg.bytes = c :: w)
      (hc : startsWord c = true) (hw : ∀ b ∈ w, inWord b = true)
      (hfree : ∀ r ∈ reservedWords, ∀ s ∈ r.spellings, (c :: w).map fold ≠ bytesOf s)
      (hrest : EndsWord rest) : Spells strtof (c :: w) (.name strg) rest
  | punct {c : UInt8} {rest : List UInt8} (hc : c ∈ punctBytes) (hrest : EndsPunct c rest) :
      Spells strtof [c] (.punct c) rest
  | int {sign text rest : List UInt8} (hsign : sign = [] ∨ sign = [45] ∧ text ≠ [48])
      (htext : Decimal text) (hrest : EndsWord rest) :
      Spells strtof (sign ++ text) (.intLiteral (Int32.ofInt (strtolDecimal (sign ++ text)))) rest
  | uint {x : UInt8} {digits rest : List UInt8} (hx : x = 120 ∨ x = 88) (hne : digits ≠ [])
      (hdigits : ∀ b ∈ digits, isHexDigit b = true) (hrest : EndsWord rest) :
      Spells strtof (48 :: x :: digits)
        (.uintLiteral (UInt32.ofNat (strtolDigits 16 digits).toNat)) rest
  | float {sign text fraction exponent rest : List UInt8} (hsign : sign = [] ∨ sign = [45])
      (htext : Decimal text) (hdigits : ∀ b ∈ fraction, range 48 57 b = true)
      (hexp : Exponent exponent) (hrest : EndsWord rest) :
      Spells strtof (sign ++ (text ++ 46 :: (fraction ++ exponent)))
        (.floatLiteral (strtof (CString.read (sign ++ (text ++ 46 :: (fraction ++ exponent))))))
        rest
  | strg {q : UInt8} {start : StartCondition} {strg : CString} {rest : List UInt8}
      (hq : Quote q start) (hplain : ∀ b ∈ strg.bytes, Plain q b) :
      Spells strtof (q :: (strg.bytes ++ [q])) (.strgLiteral strg) rest

theorem runs_lexeme {c : UInt8} {w rest strbuf : List UInt8} {action : Action} {t : Token}
    (hlex : lexeme .INITIAL c (w ++ rest) = (w.length, action))
    (hperform : ∀ s, perform strtof (c :: w) s action = (s, some t)) :
    (lexer strtof).Runs ⟨.INITIAL, strbuf⟩ (c :: w ++ rest) [t] ⟨.INITIAL, strbuf⟩ rest := by
  have hstep : (lexer strtof).step ⟨.INITIAL, strbuf⟩ c (w ++ rest) =
      (⟨.INITIAL, strbuf⟩, some t, rest) := by
    rw [lexer_step hlex, List.take_left, List.drop_left, hperform]
  exact .head hstep (.refl _ _)

theorem Spells.runs {w rest : List UInt8} {t : Token} (h : Spells strtof w t rest)
    (hend : EndsString rest) (strbuf : List UInt8) :
    ∃ strbuf', (lexer strtof).Runs ⟨.INITIAL, strbuf⟩ (w ++ rest) [t] ⟨.INITIAL, strbuf'⟩ rest := by
  cases h with
  | @reserved r s c w rest hr hs hfold hrest =>
      exact ⟨strbuf, runs_lexeme (lexeme_reserved hr hs hfold hrest.word) fun _ => rfl⟩
  | @name strg c w rest hbytes hc hw hfree hrest =>
      refine ⟨strbuf, runs_lexeme (lexeme_name hc hw hrest.word hfree) fun s => ?_⟩
      rw [perform, ← hbytes, CString.read_bytes]
  | @punct c rest hc hrest =>
      exact ⟨strbuf, runs_lexeme (w := []) (lexeme_punctuation hc hrest) fun _ => rfl⟩
  | @int sign text rest hsign htext hrest =>
      obtain ⟨c, w, hcons, hlex⟩ := lexeme_int hsign htext hrest
      rw [hcons]
      exact ⟨strbuf, runs_lexeme hlex fun _ => rfl⟩
  | @uint x digits rest hx hne hdigits hrest =>
      exact ⟨strbuf, runs_lexeme (lexeme_uint hx hne hdigits hrest) fun _ => rfl⟩
  | @float sign text fraction exponent rest hsign htext hdigits hexp hrest =>
      obtain ⟨c, w, hcons, hlex⟩ := lexeme_float hsign htext hdigits hexp hrest
      rw [hcons]
      exact ⟨strbuf, runs_lexeme hlex fun _ => rfl⟩
  | @strg q start strg rest hq hplain =>
      refine ⟨strg.bytes, ?_⟩
      rw [List.cons_append, List.append_assoc, List.singleton_append]
      exact runs_string hq hplain hend strbuf

/-! ## Texts -/

/-- The text has these tokens, with a filler in front of every token and at the end. -/
inductive Spelled (strtof : CString → UInt32) : List Token → List UInt8 → Prop
  | nil {g : List UInt8} (hg : Filler g) : Spelled strtof [] g
  | cons {g w rest : List UInt8} {t : Token} {ts : List Token} (hg : Filler g)
      (hw : Spells strtof w t rest) (hrest : Spelled strtof ts rest) :
      Spelled strtof (t :: ts) (g ++ (w ++ rest))

theorem isSpace_ne_backslash {b : UInt8} (h : isSpace b = true) : b ≠ 92 := by
  rintro rfl
  cases h

theorem endsString_cons {b : UInt8} (h : b ≠ 92) {rest : List UInt8}
    (hrest : isBlank b = true → EndsString rest) : EndsString (b :: rest) := by
  rw [EndsString, List.dropWhile_cons]
  split
  · exact hrest ‹_›
  · rw [List.head?_cons, ne_eq, Option.some.injEq]
    exact h

theorem Filler.endsString {g rest : List UInt8} (hg : Filler g) (h : EndsString rest) :
    EndsString (g ++ rest) := by
  induction hg with
  | nil => exact h
  | space hb hg ih => exact endsString_cons (isSpace_ne_backslash hb) fun _ => ih
  | comment hc hg ih =>
      cases hc with
      | block c hc => exact endsString_cons (by decide) fun hblank => absurd hblank (by decide)
      | line c hc => exact endsString_cons (by decide) fun hblank => absurd hblank (by decide)

/-- No token begins with a blank or a backslash. -/
theorem Spells.endsString {w rest : List UInt8} {t : Token} (h : Spells strtof w t rest) :
    EndsString (w ++ rest) := by
  have hother : ∀ {c : UInt8} (w : List UInt8), c ≠ 92 → isBlank c = false →
      EndsString (c :: w) := by
    intro c w hne hblank
    exact endsString_cons hne fun h => absurd h (by simp [hblank])
  have hword : ∀ {c : UInt8} (w : List UInt8), inWord c = true → EndsString (c :: w) := by
    intro c w hc
    apply hother w
    · rintro rfl
      cases hc
    · rw [Bool.eq_false_iff]
      intro hblank
      simp only [isBlank, List.contains_iff_mem, List.mem_cons, List.not_mem_nil, or_false]
        at hblank
      rcases hblank with rfl | rfl <;> cases hc
  cases h with
  | reserved hr hs hfold hrest =>
      exact hword _ (inWord_of_startsWord (startsWord_of_reserved hr hs hfold))
  | name hbytes hc hw hfree hrest => exact hword _ (inWord_of_startsWord hc)
  | @punct c rest hc hrest =>
      have hfacts : punctBytes.all fun c => c != 92 && !isBlank c := by decide
      have hboth := List.all_eq_true.mp hfacts c hc
      rw [Bool.and_eq_true, bne_iff_ne, Bool.not_eq_true'] at hboth
      exact hother _ hboth.1 hboth.2
  | int hsign htext hrest =>
      obtain ⟨d, digits, rfl, hd⟩ := htext.head
      rcases hsign with rfl | ⟨rfl, -⟩
      · exact hword _ hd
      · exact hother _ (by decide) rfl
  | uint hx hne hdigits hrest => exact hword _ rfl
  | float hsign htext hdigits hexp hrest =>
      obtain ⟨d, digits, rfl, hd⟩ := htext.head
      rcases hsign with rfl | rfl
      · exact hword _ hd
      · exact hother _ (by decide) rfl
  | strg hq hplain =>
      cases hq with
      | double => exact hother _ (by decide) rfl
      | single => exact hother _ (by decide) rfl

theorem Spelled.endsString {ts : List Token} {text : List UInt8} (h : Spelled strtof ts text) :
    EndsString text := by
  cases h with
  | nil hg =>
      have hend := hg.endsString (show EndsString [] by simp [EndsString])
      rwa [List.append_nil] at hend
  | cons hg hw hrest => exact hg.endsString hw.endsString

/-- The scanner finds the tokens in every text that spells them, and it is not within a comment
or a string at the end. -/
theorem Spelled.scan {ts : List Token} {text : List UInt8} (h : Spelled strtof ts text)
    (strbuf : List UInt8) : ∃ strbuf', (lexer strtof).scan ⟨.INITIAL, strbuf⟩ text =
      (ts, ⟨.INITIAL, strbuf'⟩) := by
  induction h generalizing strbuf with
  | @nil g hg =>
      have hscan := hg.scan strtof strbuf []
      rw [List.append_nil] at hscan
      exact ⟨strbuf, hscan⟩
  | @cons g w rest t ts hg hw hrest ih =>
      obtain ⟨mid, hruns⟩ := hw.runs hrest.endsString strbuf
      obtain ⟨strbuf', hscan⟩ := ih mid
      refine ⟨strbuf', ?_⟩
      rw [hg.scan, hruns.scan, hscan]
      rfl

theorem Spelled.tokens_eq {ts : List Token} {text : List UInt8} (h : Spelled strtof ts text) :
    tokens strtof text = ts := by
  obtain ⟨strbuf, hscan⟩ := h.scan []
  exact congrArg Prod.fst hscan

end SimpleVm.Scanner
