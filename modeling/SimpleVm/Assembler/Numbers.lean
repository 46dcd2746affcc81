import SimpleVm.Assembler.Spacing
import SimpleVm.Assembler.Words

/-!
# Numbers in front of other text

A number ends before any byte that is no letter, digit or underscore and no
point. A floating point number has a point, digits behind it that may be
missing, and an exponent that may be missing too.
-/

namespace SimpleVm.Scanner

/-- What can stand directly behind a word or a number. -/
def EndsWord (rest : List UInt8) : Prop := ∀ x ∈ rest.head?, inWord x = false ∧ x ≠ 46

theorem EndsWord.word {rest : List UInt8} (h : EndsWord rest) :
    ∀ x ∈ rest.head?, inWord x = false := fun x hx => (h x hx).1

theorem not_digit {x : UInt8} (h : inWord x = false) : range 48 57 x = false := by
  rw [inWord, Bool.or_eq_false_iff] at h
  exact h.2

theorem fold_ne_letter {x c : UInt8} (h : inWord x = false) (hc : inWord c = true) :
    (fold x == fold c) = false := by
  rw [beq_eq_false_iff_ne]
  intro heq
  rw [← inWord_fold, heq, inWord_fold, hc] at h
  cases h

theorem fold_ne_point {x : UInt8} (h : x ≠ 46) : (fold x == fold 46) = false :=
  fold_ne rfl rfl h

/-! ## Rules behind the first bytes -/

def exponentPart : Regex UInt8 :=
  .opt (sequence [byte 101, .opt (oneOf [45, 43]), decimal])

def pointPart : Regex UInt8 := sequence [byte 46, .star digit, exponentPart]

def fractionRules : List (LexRule UInt8 Action) :=
  [⟨sequence [.star digit, exponentPart], .floatLiteral⟩]

def exponentRules : List (LexRule UInt8 Action) :=
  [⟨.seq (.seq (.star digit) .empty) .empty, .floatLiteral⟩]

/-- Rules that go on only with the bytes of words and a point. -/
theorem rulesAfter_end {rules : List (LexRule UInt8 Action)} {rest : List UInt8}
    (h : ∀ rule ∈ rules, ∀ x, inWord x = false → x ≠ 46 → rule.pattern.deriv x = .never)
    (hrest : EndsWord rest) : ∀ x ∈ rest.head?, rulesAfter x rules = [] := by
  intro x hx
  obtain ⟨hword, hpoint⟩ := hrest x hx
  exact rulesAfter_eq_nil fun rule hrule => h rule hrule x hword hpoint

theorem digitRules_end : ∀ rule ∈ digitRules, ∀ x, inWord x = false → x ≠ 46 →
    rule.pattern.deriv x = .never := by
  intro rule hrule x hword hpoint
  have hdigit := not_digit hword
  have hfold := fold_ne_point hpoint
  simp only [digitRules, List.mem_cons, List.not_mem_nil, or_false] at hrule
  rcases hrule with rfl | rfl
  · simp [digit, Regex.deriv, Regex.seqNever, hdigit]
  · simp [sequence, digit, byte, Regex.deriv, Regex.nullable, Regex.seqNever, Regex.altNever,
      hdigit, hfold]

theorem fractionRules_end : ∀ rule ∈ fractionRules, ∀ x, inWord x = false → x ≠ 46 →
    rule.pattern.deriv x = .never := by
  intro rule hrule x hword hpoint
  have hdigit := not_digit hword
  have hfold : (fold x == fold 101) = false := fold_ne_letter hword rfl
  obtain rfl := List.mem_singleton.mp hrule
  simp [sequence, exponentPart, Regex.opt, digit, byte, Regex.deriv, Regex.nullable,
    Regex.seqNever, Regex.altNever, hdigit, hfold]

theorem exponentRules_end : ∀ rule ∈ exponentRules, ∀ x, inWord x = false → x ≠ 46 →
    rule.pattern.deriv x = .never := by
  intro rule hrule x hword hpoint
  have hdigit := not_digit hword
  obtain rfl := List.mem_singleton.mp hrule
  simp [digit, Regex.deriv, Regex.nullable, Regex.seqNever, Regex.altNever, hdigit]

theorem fractionRules_loop {b : UInt8} (hb : range 48 57 b = true) :
    rulesAfter b fractionRules = fractionRules := by
  rcases digit_cases hb with rfl | hnonzero
  · rfl
  · have hmem := nonzero_cases hnonzero
    simp only [List.mem_cons, List.not_mem_nil, or_false] at hmem
    rcases hmem with rfl | rfl | rfl | rfl | rfl | rfl | rfl | rfl | rfl <;> rfl

theorem exponentRules_loop {b : UInt8} (hb : range 48 57 b = true) :
    rulesAfter b exponentRules = exponentRules := by
  simp [rulesAfter, exponentRules, digit, Regex.deriv, Regex.nullable, Regex.seqNever,
    Regex.altNever, hb]

/-- The rules behind a zero. -/
def zeroRules : List (LexRule UInt8 Action) :=
  [⟨.empty, .intLiteral⟩,
    ⟨.seq (sequence [byte 120]) (sequence [.plus hexDigit]), .uintLiteral⟩,
    ⟨pointPart, .floatLiteral⟩, ⟨.empty, .invalidCharacter⟩]

theorem rulesAfter_zero : rulesAfter 48 (rules .INITIAL) = zeroRules ∧
    rulesAfter 48 (rulesAfter 45 (rules .INITIAL)) = [⟨pointPart, .floatLiteral⟩] := ⟨rfl, rfl⟩

theorem zeroRules_end : ∀ rule ∈ zeroRules, ∀ x, inWord x = false → x ≠ 46 →
    rule.pattern.deriv x = .never := by
  intro rule hrule x hword hpoint
  have hfold : (fold x == fold 120) = false := fold_ne_letter hword rfl
  have hfold' := fold_ne_point hpoint
  simp only [zeroRules, List.mem_cons, List.not_mem_nil, or_false] at hrule
  rcases hrule with rfl | rfl | rfl | rfl
  · rfl
  · simp [sequence, byte, Regex.deriv, Regex.nullable, Regex.seqNever, hfold]
  · simp [pointPart, sequence, byte, Regex.deriv, Regex.nullable, Regex.seqNever, hfold']
  · rfl

/-- The rules behind the `e`, and behind a sign. -/
def signRules : List (LexRule UInt8 Action) :=
  [⟨.seq (sequence [.opt (oneOf [45, 43]), decimal]) .empty, .floatLiteral⟩]

def signedRules : List (LexRule UInt8 Action) :=
  [⟨.seq (sequence [decimal]) .empty, .floatLiteral⟩]

theorem rulesAfter_exponent {d : UInt8} (hd : range 49 57 d = true) :
    rulesAfter d signRules = exponentRules ∧ rulesAfter d signedRules = exponentRules := by
  have hmem := nonzero_cases hd
  simp only [List.mem_cons, List.not_mem_nil, or_false] at hmem
  rcases hmem with rfl | rfl | rfl | rfl | rfl | rfl | rfl | rfl | rfl <;> exact ⟨rfl, rfl⟩

section Numbers

variable {rest : List UInt8}

/-- Nothing, or an `e`, a sign that may be missing, and digits that begin with no zero. -/
inductive Exponent : List UInt8 → Prop
  | none : Exponent []
  | some {e d : UInt8} {sign digits : List UInt8} (he : e = 101 ∨ e = 69)
      (hsign : sign = [] ∨ sign = [43] ∨ sign = [45]) (hd : range 49 57 d = true)
      (hdigits : ∀ b ∈ digits, range 48 57 b = true) : Exponent (e :: (sign ++ d :: digits))

theorem firstLongest_exponent {digits : List UInt8} (hdigits : ∀ b ∈ digits, range 48 57 b = true)
    (hrest : EndsWord rest) :
    firstLongest exponentRules (digits ++ rest) = some (digits.length, .floatLiteral) :=
  firstLongest_run (fun _ => exponentRules_loop) rfl hdigits
    (rulesAfter_end exponentRules_end hrest)

theorem firstLongest_fraction {digits exponent : List UInt8}
    (hdigits : ∀ b ∈ digits, range 48 57 b = true) (hexp : Exponent exponent)
    (hrest : EndsWord rest) :
    firstLongest fractionRules (digits ++ (exponent ++ rest)) =
      some (digits.length + exponent.length, .floatLiteral) := by
  induction digits with
  | nil =>
      cases hexp with
      | none => exact firstLongest_stop rfl (rulesAfter_end fractionRules_end hrest)
      | @some e d sign digits he hsign hd hdigits =>
          obtain ⟨hplain, hsigned⟩ := rulesAfter_exponent hd
          have hrun := firstLongest_exponent hdigits hrest
          have hletter : rulesAfter e fractionRules = signRules := by
            rcases he with rfl | rfl
            · rfl
            · rfl
          have hnumber : firstLongest signRules (sign ++ d :: digits ++ rest) =
              some ((sign ++ d :: digits).length, .floatLiteral) := by
            rcases hsign with rfl | rfl | rfl
            · rw [List.nil_append, List.cons_append, firstLongest_cons, hplain, hrun]
              rfl
            · have hplus : rulesAfter 43 signRules = signedRules := rfl
              rw [List.singleton_append, List.cons_append, List.cons_append, firstLongest_cons,
                hplus, firstLongest_cons, hsigned, hrun]
              rfl
            · have hminus : rulesAfter 45 signRules = signedRules := rfl
              rw [List.singleton_append, List.cons_append, List.cons_append, firstLongest_cons,
                hminus, firstLongest_cons, hsigned, hrun]
              rfl
          rw [List.nil_append, List.cons_append, firstLongest_cons, hletter, hnumber]
          simp only [Option.some.injEq, Prod.mk.injEq, and_true, List.length_cons, List.length_nil]
          omega
  | cons b digits ih =>
      rw [List.forall_mem_cons] at hdigits
      rw [List.cons_append, firstLongest_cons, fractionRules_loop hdigits.1, ih hdigits.2,
        List.length_cons]
      simp only [Option.some.injEq, Prod.mk.injEq, and_true]
      omega

/-- A zero, or digits that begin with none. -/
inductive Decimal : List UInt8 → Prop
  | zero : Decimal [48]
  | nonzero {d : UInt8} {digits : List UInt8} (hd : range 49 57 d = true)
      (hdigits : ∀ b ∈ digits, range 48 57 b = true) : Decimal (d :: digits)

theorem inWord_of_digit {b : UInt8} (hb : range 48 57 b = true) : inWord b = true := by
  rw [inWord, hb, Bool.or_true]

theorem Decimal.head {text : List UInt8} (h : Decimal text) :
    ∃ d digits, text = d :: digits ∧ inWord d = true := by
  cases h with
  | zero => exact ⟨48, [], rfl, rfl⟩
  | @nonzero d digits hd hdigits =>
      refine ⟨d, digits, rfl, inWord_of_digit ?_⟩
      rw [range_eq_true] at hd ⊢
      exact ⟨(show (48 : ℕ) ≤ 49 by omega).trans hd.1, hd.2⟩

theorem firstLongest_digitRules {digits : List UInt8} (hdigits : ∀ b ∈ digits, range 48 57 b = true)
    {more : List UInt8} {n : ℕ} {action : Action}
    (h : firstLongest digitRules more = some (n, action)) :
    firstLongest digitRules (digits ++ more) = some (digits.length + n, action) := by
  induction digits with
  | nil => rw [List.nil_append, h, List.length_nil, Nat.zero_add]
  | cons b digits ih =>
      rw [List.forall_mem_cons] at hdigits
      rw [List.cons_append, firstLongest_cons, digitRules_loop hdigits.1, ih hdigits.2,
        List.length_cons]
      simp only [Option.some.injEq, Prod.mk.injEq, and_true]
      omega

/-- A digit also matches the last rule, but only by itself. -/
theorem firstLongest_digitRules_append (action : Action) (input : List UInt8) :
    firstLongest (digitRules ++ [⟨.empty, action⟩]) input = firstLongest digitRules input := by
  cases input with
  | nil => rfl
  | cons x input =>
      have hdead : rulesAfter x (digitRules ++ [⟨.empty, action⟩]) = rulesAfter x digitRules := by
        rw [rulesAfter_append]
        exact List.append_nil _
      rw [firstLongest_cons, firstLongest_cons, hdead]
      rfl

/-- Behind the first digit the text is an integer or goes on with a point. -/
theorem lexeme_digits {d : UInt8} {digits : List UInt8} (hd : range 49 57 d = true)
    (hdigits : ∀ b ∈ digits, range 48 57 b = true) {more : List UInt8} {n : ℕ} {action : Action}
    (h : firstLongest digitRules more = some (n, action)) :
    lexeme .INITIAL d (digits ++ more) = (digits.length + n, action) ∧
      lexeme .INITIAL 45 (d :: (digits ++ more)) = (digits.length + n + 1, action) := by
  have hrun := firstLongest_digitRules hdigits h
  constructor
  · apply lexeme_of_firstLongest
    rw [(rulesAfter_nonzero hd).1, firstLongest_digitRules_append, hrun]
  · apply lexeme_of_firstLongest
    rw [firstLongest_cons, (rulesAfter_nonzero hd).2, hrun]

theorem firstLongest_int (hrest : EndsWord rest) :
    firstLongest digitRules rest = some (0, .intLiteral) :=
  firstLongest_stop rfl (rulesAfter_end digitRules_end hrest)

theorem firstLongest_point {fraction exponent : List UInt8}
    (hdigits : ∀ b ∈ fraction, range 48 57 b = true) (hexp : Exponent exponent)
    (hrest : EndsWord rest) :
    firstLongest digitRules (46 :: (fraction ++ (exponent ++ rest))) =
      some (fraction.length + exponent.length + 1, .floatLiteral) := by
  have hpoint : rulesAfter 46 digitRules = fractionRules := rfl
  rw [firstLongest_cons, hpoint, firstLongest_fraction hdigits hexp hrest]

/-! ## Lexemes -/

theorem lexeme_int {sign text : List UInt8} (hsign : sign = [] ∨ sign = [45] ∧ text ≠ [48])
    (htext : Decimal text) (hrest : EndsWord rest) :
    ∃ c w, sign ++ text = c :: w ∧ lexeme .INITIAL c (w ++ rest) = (w.length, .intLiteral) := by
  cases htext with
  | zero =>
      rcases hsign with rfl | ⟨rfl, hne⟩
      · refine ⟨48, [], rfl, ?_⟩
        apply lexeme_of_firstLongest
        rw [rulesAfter_zero.1]
        exact firstLongest_stop rfl (rulesAfter_end zeroRules_end hrest)
      · exact absurd rfl hne
  | @nonzero d digits hd hdigits =>
      obtain ⟨hplain, hminus⟩ := lexeme_digits hd hdigits (firstLongest_int hrest)
      rcases hsign with rfl | ⟨rfl, -⟩
      · exact ⟨d, digits, rfl, hplain⟩
      · exact ⟨45, d :: digits, rfl, hminus⟩

theorem lexeme_uint {x : UInt8} {digits : List UInt8} (hx : x = 120 ∨ x = 88) (hne : digits ≠ [])
    (hdigits : ∀ b ∈ digits, isHexDigit b = true) (hrest : EndsWord rest) :
    lexeme .INITIAL 48 (x :: digits ++ rest) = ((x :: digits).length, .uintLiteral) := by
  apply lexeme_of_firstLongest
  obtain ⟨b, digits, rfl⟩ := List.exists_cons_of_ne_nil hne
  rw [List.forall_mem_cons] at hdigits
  have hprefix : rulesAfter x (rulesAfter 48 (rules .INITIAL)) =
      [⟨.seq (.plus hexDigit) .empty, .uintLiteral⟩] := by
    rcases hx with rfl | rfl
    · rfl
    · rfl
  have hfirst : rulesAfter b [⟨.seq (.plus hexDigit) .empty, .uintLiteral⟩] = hexRules := by
    simp [rulesAfter, hexRules, hexDigit, Regex.plus, Regex.deriv, Regex.nullable,
      Regex.seqNever, hdigits.1]
  have hend : ∀ rule ∈ hexRules, ∀ x, inWord x = false → x ≠ 46 →
      rule.pattern.deriv x = .never := by
    intro rule hrule x hword hpoint
    obtain rfl := List.mem_singleton.mp hrule
    have hhex : isHexDigit x = false := by
      rw [Bool.eq_false_iff] at hword ⊢
      intro hx
      apply hword
      rw [isHexDigit, Bool.or_eq_true, range_eq_true, range_eq_true] at hx
      rw [inWord_iff]
      change (48 ≤ x.toNat ∧ x.toNat ≤ 57) ∨ (97 ≤ (fold x).toNat ∧ (fold x).toNat ≤ 102) at hx
      omega
    simp [hexDigit, Regex.deriv, Regex.nullable, Regex.seqNever, Regex.altNever, hhex]
  have hrun : firstLongest hexRules (digits ++ rest) = some (digits.length, .uintLiteral) :=
    firstLongest_run (fun _ => hexRules_loop) rfl hdigits.2 (rulesAfter_end hend hrest)
  rw [List.cons_append, firstLongest_cons, hprefix, List.cons_append, firstLongest_cons, hfirst,
    hrun]
  rfl

theorem lexeme_float {sign text fraction exponent : List UInt8} (hsign : sign = [] ∨ sign = [45])
    (htext : Decimal text) (hdigits : ∀ b ∈ fraction, range 48 57 b = true)
    (hexp : Exponent exponent) (hrest : EndsWord rest) :
    ∃ c w, sign ++ (text ++ 46 :: (fraction ++ exponent)) = c :: w ∧
      lexeme .INITIAL c (w ++ rest) = (w.length, .floatLiteral) := by
  have hfraction := firstLongest_fraction hdigits hexp hrest
  cases htext with
  | zero =>
      have hpoint : rulesAfter 46 zeroRules = fractionRules := rfl
      have hpoint' : rulesAfter 46 [⟨pointPart, Action.floatLiteral⟩] = fractionRules := rfl
      rcases hsign with rfl | rfl
      · refine ⟨48, 46 :: (fraction ++ exponent), rfl, ?_⟩
        apply lexeme_of_firstLongest
        rw [rulesAfter_zero.1, List.cons_append, List.append_assoc, firstLongest_cons, hpoint,
          hfraction]
        simp
      · refine ⟨45, 48 :: 46 :: (fraction ++ exponent), rfl, ?_⟩
        apply lexeme_of_firstLongest
        rw [List.cons_append, firstLongest_cons, rulesAfter_zero.2, List.cons_append,
          List.append_assoc, firstLongest_cons, hpoint', hfraction]
        simp
  | @nonzero d digits hd hdigits' =>
      obtain ⟨hplain, hminus⟩ :=
        lexeme_digits hd hdigits' (firstLongest_point hdigits hexp hrest)
      rcases hsign with rfl | rfl
      · refine ⟨d, digits ++ 46 :: (fraction ++ exponent), rfl, ?_⟩
        simpa [Nat.add_assoc] using hplain
      · refine ⟨45, d :: (digits ++ 46 :: (fraction ++ exponent)), rfl, ?_⟩
        simpa [Nat.add_assoc] using hminus

end Numbers

end SimpleVm.Scanner
