import Mathlib.Data.List.Basic

/-!
# Handing out values one at a time

A step function takes what its caller keeps from call to call and gives a
value, or none behind the last one. It drains a list when the calls give its
values in order and none from then on.
-/

universe u v

/-- The calls from `s` on give these values, and lead to `s'`. -/
inductive Yields {ε : Type} {σ : Type u} {V : Type v} (next : σ → Except ε (Option V × σ)) :
    σ → List V → σ → Prop
  | nil {s : σ} : Yields next s [] s
  | cons {s s₁ s' : σ} {value : V} {values : List V} (h : next s = .ok (some value, s₁))
      (hrest : Yields next s₁ values s') : Yields next s (value :: values) s'

inductive Drains {ε : Type} {σ : Type u} {V : Type v} (next : σ → Except ε (Option V × σ)) :
    σ → List V → Prop
  | nil {s s' : σ} (h : next s = .ok (none, s')) (hdone : next s' = .ok (none, s')) :
      Drains next s []
  | cons {s s' : σ} {value : V} {values : List V} (h : next s = .ok (some value, s'))
      (hrest : Drains next s' values) : Drains next s (value :: values)

namespace Drains

variable {ε : Type} {σ : Type u} {V : Type v} {next : σ → Except ε (Option V × σ)} {s : σ}
  {values : List V}

/-- What never gives `none` does not come to an end. -/
theorem exists_none (h : Drains next s values) : ∃ s s', next s = .ok (none, s') := by
  induction h with
  | nil h hdone => exact ⟨_, _, h⟩
  | cons h hrest ih => exact ih

end Drains

/-- A mark that is counted up drains what is behind it in the list. -/
theorem drains_counted {ε : Type} {σ : Type u} {V : Type v} {next : σ → Except ε (Option V × σ)}
    (mark : ℕ → σ) {l : List V}
    (hinside : ∀ i (hi : i < l.length), next (mark i) = .ok (some l[i], mark (i + 1)))
    (hend : next (mark l.length) = .ok (none, mark l.length)) (pre : List V) {values : List V}
    (hl : l = pre ++ values) : Drains next (mark pre.length) values := by
  induction values generalizing pre with
  | nil =>
      rw [List.append_nil] at hl
      rw [← hl]
      exact .nil hend hend
  | cons value values ih =>
      have hlt : pre.length < l.length := by
        rw [hl, List.length_append, List.length_cons]
        omega
      have hget : l[pre.length] = value := by
        simp only [hl, List.getElem_append_right (Nat.le_refl _), Nat.sub_self,
          List.getElem_cons_zero]
      have hnext := hinside pre.length hlt
      rw [hget] at hnext
      have hrest := ih (pre ++ [value]) (by rw [hl, List.append_assoc, List.singleton_append])
      rw [List.length_append, List.length_singleton] at hrest
      exact .cons hnext hrest
