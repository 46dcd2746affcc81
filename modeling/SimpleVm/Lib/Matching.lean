import SimpleVm.Lib.Lexing

/-!
# What rules match

A text matches a pattern when the derivative by all of its symbols accepts
the empty text. The longest match is the longest part of the input that
matches, and rules can be followed symbol by symbol as one automaton.
-/

universe u v

namespace Regex

variable {α : Type u}

/-- The whole text matches. -/
def Matches (r : Regex α) (w : List α) : Prop := (r.after w).nullable = true

theorem matches_cons {r : Regex α} {a : α} {w : List α} :
    r.Matches (a :: w) ↔ (r.deriv a).Matches w := Iff.rfl

@[simp] theorem after_never (w : List α) : (never : Regex α).after w = never := by
  induction w with
  | nil => rfl
  | cons a w ih => exact ih

theorem not_matches_never (w : List α) : ¬ (never : Regex α).Matches w := by
  rw [Matches, after_never]
  exact Bool.false_ne_true

theorem matches_of_longest {r : Regex α} {input : List α} {n : ℕ}
    (h : r.longest input = some n) : n ≤ input.length ∧ r.Matches (input.take n) := by
  induction input generalizing r n with
  | nil =>
      cases r with
      | never => cases h
      | _ =>
          simp only [longest, Option.ite_none_right_eq_some, Option.some.injEq] at h
          obtain ⟨hnull, rfl⟩ := h
          exact ⟨Nat.le_refl 0, hnull⟩
  | cons a input ih =>
      rw [longest_cons] at h
      split at h
      · next m hm =>
          obtain rfl := Option.some.inj h
          obtain ⟨hle, hmatch⟩ := ih hm
          exact ⟨Nat.succ_le_succ hle, hmatch⟩
      · simp only [Option.ite_none_right_eq_some, Option.some.injEq] at h
        obtain ⟨hnull, rfl⟩ := h
        exact ⟨Nat.zero_le _, hnull⟩

theorem exists_longest_of_matches {r : Regex α} {input : List α} {m : ℕ}
    (hm : m ≤ input.length) (h : r.Matches (input.take m)) :
    ∃ n, r.longest input = some n ∧ m ≤ n := by
  induction input generalizing r m with
  | nil =>
      have hnull : r.nullable = true := by simpa [Matches, after] using h
      cases r with
      | never => cases hnull
      | _ => exact ⟨0, by simp only [longest, hnull, if_true], hm⟩
  | cons a input ih =>
      rw [longest_cons]
      cases m with
      | zero =>
          have hnull : r.nullable = true := by simpa [Matches, after] using h
          cases hrest : (deriv a r).longest input with
          | none => exact ⟨0, by simp only [hnull, if_true], Nat.le_refl 0⟩
          | some n => exact ⟨n + 1, rfl, Nat.zero_le _⟩
      | succ m =>
          obtain ⟨n, hn, hle⟩ := ih (Nat.le_of_succ_le_succ hm) h
          exact ⟨n + 1, by rw [hn], Nat.succ_le_succ hle⟩

/-- Two inputs that begin alike have the same longest match if in neither it goes further. -/
theorem longest_append_congr {r : Regex α} {u x y : List α}
    (hx : ∀ m, r.longest (u ++ x) = some m → m ≤ u.length)
    (hy : ∀ m, r.longest (u ++ y) = some m → m ≤ u.length) :
    r.longest (u ++ x) = r.longest (u ++ y) := by
  -- a match within `u` is one in either input
  have hle : ∀ {x y : List α} {m : ℕ}, m ≤ u.length → r.longest (u ++ x) = some m →
      ∃ n, r.longest (u ++ y) = some n ∧ m ≤ n := by
    intro x y m hm hlong
    have hmatch := (matches_of_longest hlong).2
    rw [List.take_append_of_le_length hm] at hmatch
    apply exists_longest_of_matches
    · rw [List.length_append]
      exact Nat.le_trans hm (Nat.le_add_right _ _)
    · rwa [List.take_append_of_le_length hm]
  cases hlx : r.longest (u ++ x) with
  | none =>
      cases hly : r.longest (u ++ y) with
      | none => rfl
      | some n =>
          obtain ⟨m, hm, -⟩ := hle (y := x) (hy n hly) hly
          rw [hlx] at hm
          cases hm
  | some m =>
      obtain ⟨n, hn, hmn⟩ := hle (y := y) (hx m hlx) hlx
      obtain ⟨m', hm', hnm⟩ := hle (y := x) (hy n hn) hn
      obtain rfl := Option.some.inj (hlx.symm.trans hm')
      rw [hn, Nat.le_antisymm hmn hnm]

/-! ## The constructors -/

theorem matches_empty {w : List α} : (empty : Regex α).Matches w ↔ w = [] := by
  cases w with
  | nil => exact iff_of_true rfl rfl
  | cons a w => exact iff_of_false (not_matches_never w) (List.cons_ne_nil a w)

theorem matches_one {test : α → Bool} {w : List α} :
    (one test).Matches w ↔ ∃ a, w = [a] ∧ test a = true := by
  cases w with
  | nil => simp [Matches, after, nullable]
  | cons a w =>
      rw [matches_cons, deriv]
      cases htest : test a with
      | true => simp [matches_empty, htest]
      | false => simp [not_matches_never, htest]

theorem matches_alt {r s : Regex α} {w : List α} :
    (alt r s).Matches w ↔ r.Matches w ∨ s.Matches w := by
  induction w generalizing r s with
  | nil => simp [Matches, after, nullable]
  | cons a w ih =>
      simp only [matches_cons, deriv]
      cases deriv a r with
      | never => simp [altNever, not_matches_never]
      | _ => cases deriv a s <;> simp [altNever, ih, not_matches_never]

theorem matches_altNever {r s : Regex α} {w : List α} :
    (altNever r s).Matches w ↔ r.Matches w ∨ s.Matches w := by
  cases r with
  | never => simp [altNever, not_matches_never]
  | _ => cases s <;> simp [altNever, matches_alt, not_matches_never]

theorem matches_seq {r s : Regex α} {w : List α} :
    (seq r s).Matches w ↔ ∃ u v, w = u ++ v ∧ r.Matches u ∧ s.Matches v := by
  induction w generalizing r s with
  | nil => simp [Matches, after, nullable]
  | cons a w ih =>
      have hnever : ∀ r : Regex α, (seqNever r s).Matches w ↔
          ∃ u v, w = u ++ v ∧ r.Matches u ∧ s.Matches v := by
        intro r
        cases r with
        | never => simp [seqNever, not_matches_never]
        | empty => simp [seqNever, matches_empty]
        | _ => exact ih
      -- the first part is empty or begins with `a`
      have hsplit : (∃ u v, a :: w = u ++ v ∧ r.Matches u ∧ s.Matches v) ↔
          (r.nullable = true ∧ (deriv a s).Matches w) ∨
            ∃ u v, w = u ++ v ∧ (deriv a r).Matches u ∧ s.Matches v := by
        constructor
        · rintro ⟨u, v, heq, hu, hv⟩
          cases u with
          | nil =>
              obtain rfl : a :: w = v := heq
              exact Or.inl ⟨hu, hv⟩
          | cons b u =>
              obtain ⟨rfl, rfl⟩ := List.cons.inj heq
              exact Or.inr ⟨u, v, rfl, hu, hv⟩
        · rintro (⟨hnull, hs⟩ | ⟨u, v, rfl, hu, hv⟩)
          · exact ⟨[], a :: w, rfl, hnull, hs⟩
          · exact ⟨a :: u, v, rfl, hu, hv⟩
      rw [matches_cons, deriv, hsplit]
      cases hnull : r.nullable with
      | true => simp [matches_altNever, hnever, or_comm]
      | false => simp [hnever]

theorem matches_star_cons {r : Regex α} {a : α} {w : List α} :
    (star r).Matches (a :: w) ↔
      ∃ u v, w = u ++ v ∧ (r.deriv a).Matches u ∧ (star r).Matches v := by
  rw [matches_cons, deriv, ← matches_seq]
  cases deriv a r with
  | never => simp [seqNever, matches_seq, not_matches_never]
  | empty => simp [seqNever, matches_seq, matches_empty]
  | _ => rfl

theorem matches_star_one {test : α → Bool} {w : List α} :
    (star (one test)).Matches w ↔ ∀ a ∈ w, test a = true := by
  induction w with
  | nil => exact iff_of_true rfl (by simp)
  | cons a w ih =>
      rw [matches_star_cons, deriv, List.forall_mem_cons]
      cases htest : test a with
      | true => simp [matches_empty, ih]
      | false => simp [not_matches_never]

theorem matches_opt {r : Regex α} {w : List α} : r.opt.Matches w ↔ r.Matches w ∨ w = [] := by
  rw [opt, matches_alt, matches_empty]

theorem matches_plus_one {test : α → Bool} {w : List α} :
    (plus (one test)).Matches w ↔ w ≠ [] ∧ ∀ a ∈ w, test a = true := by
  rw [plus, matches_seq]
  constructor
  · rintro ⟨u, v, rfl, hu, hv⟩
    obtain ⟨a, rfl, ha⟩ := matches_one.mp hu
    exact ⟨List.cons_ne_nil a v, List.forall_mem_cons.mpr ⟨ha, matches_star_one.mp hv⟩⟩
  · rintro ⟨hne, hall⟩
    obtain ⟨a, w, rfl⟩ := List.exists_cons_of_ne_nil hne
    rw [List.forall_mem_cons] at hall
    exact ⟨[a], w, rfl, matches_one.mpr ⟨a, rfl, hall.1⟩, matches_star_one.mpr hall.2⟩

/-! ## Texts that a pattern cannot match -/

/-- No symbol of the pattern is `a`. -/
def avoids (a : α) : Regex α → Bool
  | never => true
  | empty => true
  | one test => !test a
  | seq r s => r.avoids a && s.avoids a
  | alt r s => r.avoids a && s.avoids a
  | star r => r.avoids a

/-- How long a match can be, if there is a bound. -/
def bound : Regex α → Option ℕ
  | never => some 0
  | empty => some 0
  | one _ => some 1
  | seq r s => do
      let m ← r.bound
      let n ← s.bound
      some (m + n)
  | alt r s => do
      let m ← r.bound
      let n ← s.bound
      some (max m n)
  | star _ => none

theorem not_mem_of_matches {a : α} {r : Regex α} {w : List α} (h : r.avoids a = true)
    (hw : r.Matches w) : a ∉ w := by
  induction r generalizing w with
  | never => exact absurd hw (not_matches_never w)
  | empty =>
      rw [matches_empty.mp hw]
      exact List.not_mem_nil
  | one test =>
      obtain ⟨b, rfl, hb⟩ := matches_one.mp hw
      rw [List.mem_singleton]
      rintro rfl
      simp [avoids, hb] at h
  | seq r s ihr ihs =>
      obtain ⟨hr, hs⟩ : r.avoids a = true ∧ s.avoids a = true := by simpa [avoids] using h
      obtain ⟨u, v, rfl, hu, hv⟩ := matches_seq.mp hw
      rw [List.mem_append, not_or]
      exact ⟨ihr hr hu, ihs hs hv⟩
  | alt r s ihr ihs =>
      obtain ⟨hr, hs⟩ : r.avoids a = true ∧ s.avoids a = true := by simpa [avoids] using h
      rcases matches_alt.mp hw with hw | hw
      · exact ihr hr hw
      · exact ihs hs hw
  | star r ih =>
      induction hlen : w.length using Nat.strongRecOn generalizing w with
      | ind n ihn =>
          cases w with
          | nil => exact List.not_mem_nil
          | cons b w =>
              obtain ⟨u, v, rfl, hu, hv⟩ := matches_star_cons.mp hw
              have hfirst : a ∉ b :: u := ih h (matches_cons.mpr hu)
              have hrest : a ∉ v := by
                refine ihn v.length ?_ hv rfl
                rw [← hlen, List.length_cons, List.length_append]
                omega
              rw [← List.cons_append, List.mem_append, not_or]
              exact ⟨hfirst, hrest⟩

theorem length_le_of_matches {r : Regex α} {w : List α} {n : ℕ} (hn : r.bound = some n)
    (hw : r.Matches w) : w.length ≤ n := by
  induction r generalizing w n with
  | never => exact absurd hw (not_matches_never w)
  | empty =>
      rw [matches_empty.mp hw]
      exact Nat.zero_le n
  | one test =>
      obtain ⟨a, rfl, -⟩ := matches_one.mp hw
      exact Nat.le_of_eq (Option.some.inj hn)
  | seq r s ihr ihs =>
      simp only [bound, Option.bind_eq_bind, Option.bind_eq_some_iff] at hn
      obtain ⟨k, hk, l, hl, hsum⟩ := hn
      obtain rfl := Option.some.inj hsum
      obtain ⟨u, v, rfl, hu, hv⟩ := matches_seq.mp hw
      rw [List.length_append]
      exact Nat.add_le_add (ihr hk hu) (ihs hl hv)
  | alt r s ihr ihs =>
      simp only [bound, Option.bind_eq_bind, Option.bind_eq_some_iff] at hn
      obtain ⟨k, hk, l, hl, hmax⟩ := hn
      obtain rfl := Option.some.inj hmax
      rcases matches_alt.mp hw with hw | hw
      · exact Nat.le_trans (ihr hk hw) (Nat.le_max_left k l)
      · exact Nat.le_trans (ihs hl hw) (Nat.le_max_right k l)
  | star r => cases hn

/-- A symbol and any number of others. -/
def isRun : Regex α → Bool
  | seq (one _) (star (one _)) => true
  | _ => false

theorem matches_of_isRun {r : Regex α} {u v : List α} (h : r.isRun = true) (hu : u ≠ [])
    (hw : r.Matches (u ++ v)) : r.Matches u := by
  unfold isRun at h
  split at h
  · next first more =>
      obtain ⟨x, y, heq, hx, hy⟩ := matches_seq.mp hw
      obtain ⟨a, rfl, ha⟩ := matches_one.mp hx
      obtain ⟨b, u, rfl⟩ := List.exists_cons_of_ne_nil hu
      obtain ⟨rfl, rfl⟩ := List.cons.inj heq
      refine matches_seq.mpr ⟨[b], u, rfl, matches_one.mpr ⟨b, rfl, ha⟩, ?_⟩
      rw [matches_star_one] at hy ⊢
      exact fun c hc => hy c (List.mem_append_left v hc)
  · cases h

theorem longest_star_one (test : α → Bool) (input : List α) :
    (star (one test)).longest input = some (input.takeWhile test).length := by
  induction input with
  | nil => rfl
  | cons a input ih =>
      rw [longest_cons, deriv, deriv, List.takeWhile_cons]
      cases htest : test a with
      | true => simp [seqNever, ih]
      | false => simp [seqNever, nullable]

theorem deriv_seq_never {a : α} {r : Regex α} (h : r.deriv a = never) (hnull : r.nullable = false)
    (s : Regex α) : (seq r s).deriv a = never := by
  simp [deriv, h, hnull, seqNever]

end Regex

/-! ## Rules as one automaton -/

section Rules

variable {α : Type u} {β : Type v}

/-- The rules behind their first symbol, without those that have failed. -/
def rulesAfter (a : α) : List (LexRule α β) → List (LexRule α β)
  | [] => []
  | rule :: rules =>
      match rule.pattern.deriv a with
      | .never => rulesAfter a rules
      | r => ⟨r, rule.action⟩ :: rulesAfter a rules

section

attribute [local simp] rulesAfter

theorem rulesAfter_cons_never {a : α} {rule : LexRule α β} (h : rule.pattern.deriv a = .never)
    (rules : List (LexRule α β)) : rulesAfter a (rule :: rules) = rulesAfter a rules := by
  simp [h]

end

theorem rulesAfter_eq_nil {a : α} {rules : List (LexRule α β)}
    (h : ∀ rule ∈ rules, rule.pattern.deriv a = .never) : rulesAfter a rules = [] := by
  induction rules with
  | nil => rfl
  | cons rule rules ih =>
      rw [List.forall_mem_cons] at h
      rw [rulesAfter_cons_never h.1, ih h.2]

theorem rulesAfter_append (a : α) (pre post : List (LexRule α β)) :
    rulesAfter a (pre ++ post) = rulesAfter a pre ++ rulesAfter a post := by
  induction pre with
  | nil => rfl
  | cons rule pre ih =>
      rw [List.cons_append, rulesAfter, rulesAfter, ih]
      split <;> rfl

theorem rulesAfter_star_one {a : α} (test : α → Bool) (h : test a = true) (action : β)
    (rules : List (LexRule α β)) :
    rulesAfter a (⟨.star (.one test), action⟩ :: rules) =
      ⟨.star (.one test), action⟩ :: rulesAfter a rules := by
  simp [rulesAfter, Regex.deriv, Regex.seqNever, h]

theorem rulesAfter_plus_one {a : α} (test : α → Bool) (h : test a = true) (action : β)
    (rules : List (LexRule α β)) :
    rulesAfter a (⟨.plus (.one test), action⟩ :: rules) =
      ⟨.star (.one test), action⟩ :: rulesAfter a rules := by
  simp [rulesAfter, Regex.plus, Regex.deriv, Regex.nullable, Regex.seqNever, h]

/-- What the rules do where the lexeme ends. -/
def accepted : List (LexRule α β) → Option β
  | [] => none
  | rule :: rules => if rule.pattern.nullable then some rule.action else accepted rules

theorem firstLongest_never_cons (action : β) (rules : List (LexRule α β)) (input : List α) :
    firstLongest (⟨.never, action⟩ :: rules) input = firstLongest rules input := by
  simp [firstLongest]

theorem firstLongest_rulesAfter_cons (a : α) (rule : LexRule α β) (rules : List (LexRule α β))
    (input : List α) :
    firstLongest (rulesAfter a (rule :: rules)) input =
      firstLongest (⟨rule.pattern.deriv a, rule.action⟩ :: rulesAfter a rules) input := by
  rw [rulesAfter]
  split
  · next hnever => rw [hnever, firstLongest_never_cons]
  · rfl

theorem firstLongest_nil (rules : List (LexRule α β)) :
    firstLongest rules [] = (accepted rules).map fun action => (0, action) := by
  have hnil : ∀ r : Regex α, r.longest [] = if r.nullable then some 0 else none := by
    intro r
    cases r <;> rfl
  induction rules with
  | nil => rfl
  | cons rule rules ih =>
      rw [firstLongest, accepted, hnil, ih]
      cases rule.pattern.nullable with
      | true => cases accepted rules <;> rfl
      | false => cases accepted rules <;> rfl

theorem firstLongest_cons (rules : List (LexRule α β)) (a : α) (input : List α) :
    firstLongest rules (a :: input) =
      match firstLongest (rulesAfter a rules) input with
      | some (n, action) => some (n + 1, action)
      | none => (accepted rules).map fun action => (0, action) := by
  induction rules with
  | nil => rfl
  | cons rule rules ih =>
      rw [firstLongest_rulesAfter_cons, firstLongest, firstLongest, ih, Regex.longest_cons,
        accepted]
      cases hrule : (rule.pattern.deriv a).longest input with
      | none =>
          cases hrest : firstLongest (rulesAfter a rules) input with
          | none =>
              cases rule.pattern.nullable with
              | true => cases accepted rules <;> rfl
              | false => rfl
          | some best =>
              cases rule.pattern.nullable with
              | true => simp
              | false => rfl
      | some n =>
          cases hrest : firstLongest (rulesAfter a rules) input with
          | none => cases accepted rules <;> simp
          | some best =>
              obtain ⟨m, action⟩ := best
              simp only [Nat.add_le_add_iff_right]
              split <;> rfl

/-- The lexeme ends where no rule goes on. -/
theorem firstLongest_stop {rules : List (LexRule α β)} {action : β} {rest : List α}
    (haccepted : accepted rules = some action)
    (hstop : ∀ x ∈ rest.head?, rulesAfter x rules = []) :
    firstLongest rules rest = some (0, action) := by
  cases rest with
  | nil => rw [firstLongest_nil, haccepted, Option.map_some]
  | cons x rest =>
      have hnone : firstLongest (rulesAfter x rules) rest = none := by
        rw [hstop x rfl]
        rfl
      rw [firstLongest_cons, hnone, haccepted, Option.map_some]

/-- Symbols that leave the rules as they are belong to the lexeme. -/
theorem firstLongest_run {rules : List (LexRule α β)} {action : β} {test : α → Bool}
    (hloop : ∀ a, test a = true → rulesAfter a rules = rules)
    (haccepted : accepted rules = some action) {w rest : List α}
    (hw : ∀ a ∈ w, test a = true) (hstop : ∀ x ∈ rest.head?, rulesAfter x rules = []) :
    firstLongest rules (w ++ rest) = some (w.length, action) := by
  induction w with
  | nil => exact firstLongest_stop haccepted hstop
  | cons a w ih =>
      rw [List.forall_mem_cons] at hw
      rw [List.cons_append, firstLongest_cons, hloop a hw.1, ih hw.2]
      rfl

/-- No rule matches more than the best one. -/
theorem longest_le_of_firstLongest {rules : List (LexRule α β)} {input : List α} {k : ℕ}
    (h : ∀ n action, firstLongest rules input = some (n, action) → n ≤ k) :
    ∀ rule ∈ rules, ∀ m, rule.pattern.longest input = some m → m ≤ k := by
  induction rules with
  | nil => simp
  | cons rule rules ih =>
      rw [List.forall_mem_cons]
      constructor
      · intro m hm
        cases hrest : firstLongest rules input with
        | none => exact h m rule.action (by rw [firstLongest, hm, hrest])
        | some best =>
            obtain ⟨n, action⟩ := best
            by_cases hle : n ≤ m
            · exact h m rule.action (by simp only [firstLongest, hm, hrest, if_pos hle])
            · have hn := h n action (by simp only [firstLongest, hm, hrest, if_neg hle])
              omega
      · apply ih
        intro n action hrest
        cases hm : rule.pattern.longest input with
        | none => exact h n action (by simp only [firstLongest, hm, hrest])
        | some m =>
            by_cases hle : n ≤ m
            · have hm' := h m rule.action (by simp only [firstLongest, hm, hrest, if_pos hle])
              omega
            · exact h n action (by simp only [firstLongest, hm, hrest, if_neg hle])

theorem firstLongest_congr {rules : List (LexRule α β)} {input input' : List α}
    (h : ∀ rule ∈ rules, rule.pattern.longest input = rule.pattern.longest input') :
    firstLongest rules input = firstLongest rules input' := by
  induction rules with
  | nil => rfl
  | cons rule rules ih =>
      rw [List.forall_mem_cons] at h
      rw [firstLongest, firstLongest, h.1, ih h.2]

end Rules
