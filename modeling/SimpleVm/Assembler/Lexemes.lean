import SimpleVm.Assembler.Scanner
import SimpleVm.Lib.Matching

/-!
# Lexemes in front of other text

Where no rule can go on, a lexeme is the same in front of any text. White
space is one lexeme as long as it goes on, and no pattern goes from one lexeme
over a gap to a slash unless it had already gone on to the gap.
-/

namespace SimpleVm.Scanner

variable {strtof : CString → UInt32}

theorem lexer_step {s : ScannerState} {c : UInt8} {input : List UInt8} {n : ℕ} {action : Action}
    (h : lexeme s.start c input = (n, action)) :
    (lexer strtof).step s c input =
      ((perform strtof (c :: input.take n) s action).1,
        (perform strtof (c :: input.take n) s action).2, input.drop n) := by
  simp only [lexer, yytext, h]

theorem lexeme_of_firstLongest {start : StartCondition} {c : UInt8} {input : List UInt8} {n : ℕ}
    {action : Action} (h : firstLongest (rulesAfter c (rules start)) input = some (n, action)) :
    lexeme start c input = (n, action) := by
  rw [lexeme, firstLongest_cons, h]

theorem lexeme_append {start : StartCondition} {c : UInt8} {w : List UInt8} {n : ℕ}
    {action : Action} (hsettled : ∀ rule ∈ rules start, (rule.pattern.after (c :: w)).isSettled)
    (h : firstLongest (rules start) (c :: w) = some (n + 1, action)) (rest : List UInt8) :
    lexeme start c (w ++ rest) = (n, action) := by
  rw [lexeme, ← List.cons_append, firstLongest_append hsettled, h]

theorem lexeme_quote (input : List UInt8) :
    lexeme .INITIAL 34 input = (0, .openQuote .DQUOTE) :=
  lexeme_of_firstLongest (firstLongest_stop rfl fun _ _ => rfl)

/-- A byte that is no letter is the only one that folds like it. -/
theorem eq_of_fold {a c : UInt8} (hupper : range 65 90 c = false) (hlower : range 97 122 c = false)
    (h : (fold a == fold c) = true) : a = c := by
  have hfold : fold c = c := if_neg (by simpa [range] using hupper)
  have heq : fold a = c := (eq_of_beq h).trans hfold
  rw [fold] at heq
  split at heq
  next hletter =>
    -- an upper-case letter folds to a lower-case one
    have hrange : 65 ≤ a.toNat ∧ a.toNat ≤ 90 := hletter
    have hsum : c.toNat = (a.toNat + 32) % 256 := by
      rw [← heq, UInt8.toNat_add]
      rfl
    have hge : 97 ≤ c := UInt8.le_iff_toNat_le.mpr (show 97 ≤ c.toNat by omega)
    have hle : c ≤ 122 := UInt8.le_iff_toNat_le.mpr (show c.toNat ≤ 122 by omega)
    simp [range, hge, hle] at hlower
  next => exact heq

theorem fold_ne {a c : UInt8} (hupper : range 65 90 c = false) (hlower : range 97 122 c = false)
    (h : a ≠ c) : (fold a == fold c) = false := by
  rw [Bool.eq_false_iff]
  exact fun heq => h (eq_of_fold hupper hlower heq)

/-! ## White space -/

/-- The bytes of the rule for white space. -/
def isSpace (b : UInt8) : Bool := [32, 9, 13, 10, 11, 12].contains b

def Gap (g : List UInt8) : Prop := g ≠ [] ∧ ∀ b ∈ g, isSpace b = true

theorem lexeme_space {c : UInt8} (hc : isSpace c = true) (input : List UInt8) :
    lexeme .INITIAL c input = ((input.takeWhile isSpace).length, .ignore) := by
  apply lexeme_of_firstLongest
  have hlong : (Regex.star (oneOf [32, 9, 13, 10, 11, 12])).longest input =
      some (input.takeWhile isSpace).length := Regex.longest_star_one _ input
  -- all but the newline also match the rule behind it
  have hrules : rulesAfter c (rules .INITIAL) =
        [⟨.star (oneOf [32, 9, 13, 10, 11, 12]), .ignore⟩, ⟨.empty, .invalidCharacter⟩] ∨
      rulesAfter c (rules .INITIAL) = [⟨.star (oneOf [32, 9, 13, 10, 11, 12]), .ignore⟩] := by
    have hmem : c ∈ [32, 9, 13, 10, 11, 12] := by simpa [isSpace] using hc
    simp only [List.mem_cons, List.not_mem_nil, or_false] at hmem
    rcases hmem with rfl | rfl | rfl | rfl | rfl | rfl
    · exact Or.inl rfl
    · exact Or.inl rfl
    · exact Or.inl rfl
    · exact Or.inr rfl
    · exact Or.inl rfl
    · exact Or.inl rfl
  rcases hrules with hrules | hrules
  · simp [hrules, firstLongest, hlong]
  · simp [hrules, firstLongest, hlong]

theorem drop_takeWhile (test : UInt8 → Bool) (input : List UInt8) :
    input.drop (input.takeWhile test).length = input.dropWhile test := by
  conv_lhs => rw [← List.takeWhile_append_dropWhile (p := test) (l := input)]
  rw [List.drop_left']
  rw [List.takeWhile_append_dropWhile]

theorem step_space {c : UInt8} (hc : isSpace c = true) (strbuf input : List UInt8) :
    (lexer strtof).step ⟨.INITIAL, strbuf⟩ c input =
      (⟨.INITIAL, strbuf⟩, none, input.dropWhile isSpace) := by
  rw [lexer_step (lexeme_space hc input), drop_takeWhile]
  rfl

theorem Gap.runs (strtof : CString → UInt32) {g : List UInt8} (hg : Gap g)
    (strbuf rest : List UInt8) :
    (lexer strtof).Runs ⟨.INITIAL, strbuf⟩ (g ++ rest) [] ⟨.INITIAL, strbuf⟩
      (rest.dropWhile isSpace) := by
  obtain ⟨hne, hall⟩ := hg
  obtain ⟨c, g, rfl⟩ := List.exists_cons_of_ne_nil hne
  rw [List.forall_mem_cons] at hall
  have hdrop : (g ++ rest).dropWhile isSpace = rest.dropWhile isSpace := by
    rw [List.dropWhile_append_of_pos hall.2]
  have hstep : (lexer strtof).step ⟨.INITIAL, strbuf⟩ c (g ++ rest) =
      (⟨.INITIAL, strbuf⟩, none, rest.dropWhile isSpace) := by
    rw [step_space hall.1, hdrop]
  exact .head (t := none) hstep (.refl _ _)

/-- Where there is a gap, more white space in front of it changes nothing. -/
theorem Gap.scan_append (strtof : CString → UInt32) {g g' : List UInt8} (hg : Gap g)
    (hg' : Gap g') (strbuf rest : List UInt8) :
    (lexer strtof).scan ⟨.INITIAL, strbuf⟩ (g ++ g' ++ rest) =
      (lexer strtof).scan ⟨.INITIAL, strbuf⟩ (g' ++ rest) := by
  have hall : Gap (g ++ g') := by
    refine ⟨by simp [hg.1], ?_⟩
    intro b hb
    exact (List.mem_append.mp hb).elim (hg.2 b) (hg'.2 b)
  rw [(hall.runs strtof strbuf rest).scan, (hg'.runs strtof strbuf rest).scan]

/-! ## Gaps and slashes -/

/-- A pattern knows no slash, or is a run of one class, or matches two bytes at most. -/
theorem rules_facts (start : StartCondition) : ∀ rule ∈ rules start,
    rule.pattern.avoids 47 = true ∨ rule.pattern.isRun = true ∨
      ∃ n ∈ rule.pattern.bound, n ≤ 2 := by
  cases start <;> decide +kernel

theorem longest_le_of_lexeme {start : StartCondition} {c : UInt8} {input : List UInt8} {k : ℕ}
    (h : (lexeme start c input).1 ≤ k) :
    ∀ rule ∈ rules start, ∀ m, rule.pattern.longest (c :: input) = some m → m ≤ k + 1 := by
  apply longest_le_of_firstLongest
  intro n action hbest
  cases n with
  | zero => exact Nat.zero_le _
  | succ n =>
      rw [lexeme, hbest] at h
      exact Nat.succ_le_succ h

/-- A lexeme that ends before the gap does not depend on a slash behind it. -/
theorem lexeme_congr {start : StartCondition} {c : UInt8} {w g y : List UInt8} (hg : g ≠ [])
    (hlex : (lexeme start c (w ++ (g ++ y))).1 ≤ w.length) (z : List UInt8) :
    lexeme start c (w ++ (g ++ 47 :: z)) = lexeme start c (w ++ (g ++ y)) := by
  have hold := longest_le_of_lexeme hlex
  obtain ⟨b, g, rfl⟩ := List.exists_cons_of_ne_nil hg
  have hsplit : ∀ x, c :: (w ++ (b :: g ++ x)) = (c :: w ++ b :: g) ++ x := by simp
  have hbest : firstLongest (rules start) (c :: (w ++ (b :: g ++ 47 :: z))) =
      firstLongest (rules start) (c :: (w ++ (b :: g ++ y))) := by
    apply firstLongest_congr
    intro rule hrule
    rw [hsplit, hsplit]
    have hold := hold rule hrule
    rw [hsplit] at hold
    apply Regex.longest_append_congr
    · intro m hm
      by_contra hlong
      obtain ⟨v, hv⟩ : ∃ v, ((c :: w ++ b :: g) ++ 47 :: z).take m =
          (c :: w ++ b :: g) ++ 47 :: v := by
        obtain ⟨k, rfl⟩ := Nat.exists_eq_add_of_lt (Nat.not_le.mp hlong)
        refine ⟨z.take k, ?_⟩
        rw [List.take_append, List.take_of_length_le (by omega)]
        congr 1
        have hk : (c :: w ++ b :: g).length + k + 1 - (c :: w ++ b :: g).length = k + 1 := by omega
        rw [hk, List.take_succ_cons]
      have hmatch := (Regex.matches_of_longest hm).2
      rw [hv] at hmatch
      rcases rules_facts start rule hrule with havoids | hrun | ⟨n, hn, hle⟩
      · exact Regex.not_mem_of_matches havoids hmatch (by simp)
      · have hfront : (c :: w ++ b :: g) ++ 47 :: v = (c :: w ++ [b]) ++ (g ++ 47 :: v) := by simp
        rw [hfront] at hmatch
        have hshort := Regex.matches_of_isRun hrun (by simp) hmatch
        have htake : ((c :: w ++ b :: g) ++ y).take (c :: w ++ [b]).length = c :: w ++ [b] := by
          have hassoc : (c :: w ++ b :: g) ++ y = (c :: w ++ [b]) ++ (g ++ y) := by simp
          rw [hassoc, List.take_left]
        have hfits : (c :: w ++ [b]).length ≤ ((c :: w ++ b :: g) ++ y).length := by simp
        obtain ⟨n, hn, hle⟩ := Regex.exists_longest_of_matches hfits (by rwa [htake])
        have hend := hold n hn
        simp only [List.length_append, List.length_cons, List.length_nil] at hle
        omega
      · have hlen := Regex.length_le_of_matches hn hmatch
        simp only [List.length_append, List.length_cons] at hlen
        omega
    · intro m hm
      have hend := hold m hm
      simp only [List.length_append, List.length_cons]
      omega
  rw [lexeme, lexeme, hbest]

end SimpleVm.Scanner
