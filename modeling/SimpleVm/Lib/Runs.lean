import Mathlib.Data.List.Induction

/-!
# Runs of calls

A run is reached by the calls before its last one and a step. An invariant may
speak of the calls so far. When it lasts exactly as long as each step keeps it,
what it gives for every state of a run is a condition on the steps.
-/

universe u v

/-- `reached calls s` when the calls lead to the state `s`, one step a call. -/
structure IsRun {κ : Type u} {σ : Type v} (reached : List κ → σ → Prop)
    (step : σ → κ → σ → Prop) : Prop where
  concat : ∀ {calls call s'}, reached (calls ++ [call]) s' ↔ ∃ s, reached calls s ∧ step s call s'

namespace IsRun

variable {κ : Type u} {σ : Type v} {reached : List κ → σ → Prop} {step : σ → κ → σ → Prop}
  (h : IsRun reached step) {calls : List κ} {I Good : List κ → σ → Prop} {Keeps : σ → κ → Prop}

include h

/-- What holds at the start and goes on to hold with every step of the run holds at its end. -/
theorem invariant (hstart : ∀ s, reached [] s → I [] s)
    (hstep : ∀ pre call s s', pre ++ [call] <+: calls → reached pre s → I pre s →
      step s call s' → I (pre ++ [call]) s') {s : σ} (hreached : reached calls s) : I calls s := by
  induction calls using List.reverseRecOn generalizing s with
  | nil => exact hstart s hreached
  | append_singleton calls call ih =>
      obtain ⟨s₀, hbefore, hlast⟩ := h.concat.mp hreached
      have hcalls : I calls s₀ := by
        apply ih _ hbefore
        intro pre c s s' hpre
        exact hstep pre c s s' (hpre.trans (List.prefix_append calls [call]))
      exact hstep calls call s₀ s List.prefix_rfl hbefore hcalls hlast

/-- A run comes to its end when there is a step from wherever it has come to. -/
theorem exists_reached (hstart : ∃ s, reached [] s)
    (hstep : ∀ pre call s, pre ++ [call] <+: calls → reached pre s → ∃ s', step s call s') :
    ∃ s, reached calls s := by
  induction calls using List.reverseRecOn with
  | nil => exact hstart
  | append_singleton calls call ih =>
      obtain ⟨s, hbefore⟩ := ih fun pre c s hpre =>
        hstep pre c s (hpre.trans (List.prefix_append calls [call]))
      obtain ⟨s', hlast⟩ := hstep calls call s List.prefix_rfl hbefore
      exact ⟨s', h.concat.mpr ⟨s, hbefore, hlast⟩⟩

/-- Every state of a run is good just when every step is one that keeps the
invariant, if a step has to keep it for the next states to be good. -/
theorem forall_good_iff (hstart : ∀ s, reached [] s → I [] s) (hgood : ∀ pre s, I pre s → Good pre s)
    (hstep : ∀ pre call s s', I pre s → Keeps s call → step s call s' → I (pre ++ [call]) s')
    (hneeds : ∀ pre call s, I pre s → (∀ s', step s call s' → Good (pre ++ [call]) s') →
      Keeps s call) :
    (∀ pre, pre <+: calls → ∀ s, reached pre s → Good pre s) ↔
      ∀ pre call, pre ++ [call] <+: calls → ∀ s, reached pre s → Keeps s call := by
  constructor
  · intro hall
    have hkeeps : ∀ pre call, pre ++ [call] <+: calls → ∀ s, reached pre s → I pre s →
        Keeps s call := by
      intro pre call hpre s hs hi
      apply hneeds pre call s hi
      intro s' hs'
      exact hall _ hpre s' (h.concat.mpr ⟨s, hs, hs'⟩)
    intro pre call hpre s hs
    apply hkeeps pre call hpre s hs
    refine h.invariant hstart ?_ hs
    intro p c s₁ s₂ hp hs₁ hi hs₂
    have hearlier := hp.trans ((List.prefix_append pre [call]).trans hpre)
    exact hstep p c s₁ s₂ hi (hkeeps p c hearlier s₁ hs₁ hi) hs₂
  · intro hkeeps pre hpre s hs
    apply hgood
    refine h.invariant hstart ?_ hs
    intro p c s₁ s₂ hp hs₁ hi hs₂
    exact hstep p c s₁ s₂ hi (hkeeps p c (hp.trans hpre) s₁ hs₁) hs₂

end IsRun
