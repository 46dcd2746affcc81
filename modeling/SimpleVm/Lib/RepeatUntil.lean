import Mathlib.Algebra.Ring.Defs
import Mathlib.Data.Nat.Find
import Mathlib.Logic.Function.Iterate
import Mathlib.Order.Defs.LinearOrder
import Mathlib.Order.Lattice

/-!
# Loops that repeat a step until a test succeeds

The loop runs for a number of tests. It returns the first iterate that
passes, and a step that stays where the test fails never returns. Doubling a
power of two reaches every bound that doubling itself can reach.
-/

universe u

variable {β : Type u}

/-- `while(!enough(x)) x = f(x);` for at most so many tests. -/
def repeatUntil (f : β → β) (enough : β → Bool) : ℕ → β → Option β
  | 0, _ => none
  | tests + 1, x => if enough x then some x else repeatUntil f enough tests (f x)

namespace RepeatUntil

variable {f : β → β} {enough : β → Bool} {x : β}

theorem eq_some_of_first {n tests : ℕ} (hn : n < tests)
    (hpre : ∀ m < n, enough (f^[m] x) = false) (hend : enough (f^[n] x) = true) :
    repeatUntil f enough tests x = some (f^[n] x) := by
  induction n generalizing tests x with
  | zero =>
      obtain ⟨tests, rfl⟩ := Nat.exists_eq_add_of_lt hn
      have hx : enough x = true := hend
      simp [repeatUntil, hx]
  | succ n ih =>
      obtain ⟨tests, rfl⟩ := Nat.exists_eq_add_of_lt hn
      have hx : enough x = false := hpre 0 (Nat.succ_pos n)
      have hstep : repeatUntil f enough (n + 1 + tests + 1) x =
          repeatUntil f enough (n + 1 + tests) (f x) := by simp [repeatUntil, hx]
      rw [hstep, Function.iterate_succ_apply]
      apply ih (Nat.lt_add_right tests (Nat.lt_succ_self n))
      · intro m hm
        rw [← Function.iterate_succ_apply]
        exact hpre (m + 1) (Nat.succ_lt_succ hm)
      · rwa [← Function.iterate_succ_apply]

theorem invariant {P : β → Prop} (hstep : ∀ y, P y → P (f y)) {tests : ℕ} {y : β} (hx : P x)
    (h : repeatUntil f enough tests x = some y) : P y := by
  induction tests generalizing x with
  | zero => simp [repeatUntil] at h
  | succ tests ih =>
      rw [repeatUntil] at h
      split at h
      · obtain rfl : x = y := by simpa using h
        exact hx
      · exact ih (hstep x hx) h

theorem enough_of_eq_some {tests : ℕ} {y : β} (h : repeatUntil f enough tests x = some y) :
    enough y = true := by
  induction tests generalizing x with
  | zero => simp [repeatUntil] at h
  | succ tests ih =>
      rw [repeatUntil] at h
      split at h
      · next hx =>
          obtain rfl : x = y := by simpa using h
          exact hx
      · exact ih h

section Doubling

variable [Semiring β]

theorem iterate_double {E e m : ℕ} (hdouble : ∀ k < E, f (2 ^ k) = 2 ^ (k + 1))
    (hm : e + m ≤ E) : f^[m] (2 ^ e) = 2 ^ (e + m) := by
  induction m with
  | zero => rfl
  | succ m ih =>
      rw [Function.iterate_succ_apply', ih (by omega), hdouble (e + m) (by omega)]
      rfl

/-- Doubling from `2 ^ e` stops at the first power of two that is large enough. -/
theorem exists_double [LinearOrder β] {need : β} {E e : ℕ} (tests : ℕ)
    (hdouble : ∀ k < E, f (2 ^ k) = 2 ^ (k + 1))
    (he : e ≤ E) (hneed : need ≤ 2 ^ E) (htests : E - e < tests) :
    ∃ e', e ≤ e' ∧ e' ≤ E ∧ need ≤ 2 ^ e' ∧ (∀ k, e ≤ k → k < e' → 2 ^ k < need) ∧
      repeatUntil f (fun x => decide (need ≤ x)) tests (2 ^ e) = some (2 ^ e') := by
  have hex : ∃ n, need ≤ 2 ^ (e + n) := ⟨E - e, by rwa [Nat.add_sub_cancel' he]⟩
  have hle : Nat.find hex ≤ E - e := Nat.find_min' hex (by rwa [Nat.add_sub_cancel' he])
  refine ⟨e + Nat.find hex, by omega, by omega, Nat.find_spec hex, ?_, ?_⟩
  · intro k hek hk
    obtain ⟨m, rfl⟩ := Nat.exists_eq_add_of_le hek
    exact lt_of_not_ge (Nat.find_min hex (by omega))
  · rw [← iterate_double hdouble (by omega)]
    apply eq_some_of_first (by omega)
    · intro m hm
      rw [iterate_double hdouble (by omega)]
      simpa using Nat.find_min hex hm
    · rw [iterate_double hdouble (by omega)]
      simpa using Nat.find_spec hex

end Doubling

end RepeatUntil
