import Mathlib.Data.List.Basic

/-!
# Expansion of directives

A token that names a file is a directive when the token before it arms it. The
expansion of a list of tokens puts the tokens of the named file behind each
directive, and these are expanded in their turn. Files that do not include
themselves through others have an expansion.
-/

universe u v

/-- How tokens name files, and the tokens of each file. -/
structure Directives (τ : Type u) (ν : Type v) where
  arms : τ → Bool
  name : τ → Option ν
  body : ν → Option (List τ)
  arms_of_name : ∀ t f, name t = some f → arms t = false

namespace Directives

variable {τ : Type u} {ν : Type v} (D : Directives τ ν)

/-- The file that a token opens, by whether the token before arms it. -/
def opened (armed : Bool) (t : τ) : Option ν := if armed then D.name t else none

/-- The expansion of a list of tokens, the files that are opened in it, and
whether its last token arms the next. -/
inductive Expands : Bool → List τ → List τ → List ν → Bool → Prop
  | nil {armed} : Expands armed [] [] [] armed
  | token {armed t ts out names armed'} (h : D.opened armed t = none)
      (hrest : Expands (D.arms t) ts out names armed') :
      Expands armed (t :: ts) (t :: out) names armed'
  | directive {armed t ts out names armed' f body} (h : D.opened armed t = some f)
      (hbody : D.body f = some body)
      (hrest : Expands (D.arms t) (body ++ ts) out names armed') :
      Expands armed (t :: ts) (t :: out) (f :: names) armed'

/-- The files that a list of tokens can open. Behind a directive the token
before may be the last of the included file. -/
def targets : Bool → List τ → List ν
  | _, [] => []
  | armed, t :: ts =>
      match D.opened armed t with
      | some f => f :: targets true ts
      | none => targets (D.arms t) ts

/-- Every file that these tokens can open exists. -/
def Found (ts : List τ) : Prop := ∀ f ∈ D.targets false ts, (D.body f).isSome

instance (ts : List τ) : Decidable (D.Found ts) :=
  inferInstanceAs (Decidable (∀ f ∈ D.targets false ts, (D.body f).isSome))

variable {D}

theorem Expands.append {armed armed₁ armed₂ : Bool} {ts ts' out out' : List τ}
    {names names' : List ν} (h : D.Expands armed ts out names armed₁)
    (h' : D.Expands armed₁ ts' out' names' armed₂) :
    D.Expands armed (ts ++ ts') (out ++ out') (names ++ names') armed₂ := by
  induction h with
  | nil => exact h'
  | token h _ ih => exact .token h (ih h')
  | directive h hbody _ ih =>
      have hrest := ih h'
      rw [List.append_assoc] at hrest
      exact .directive h hbody hrest

theorem Expands.unique {armed armed₁ armed₂ : Bool} {ts out out' : List τ} {names names' : List ν}
    (h : D.Expands armed ts out names armed₁) (h' : D.Expands armed ts out' names' armed₂) :
    out = out' ∧ names = names' := by
  induction h generalizing out' names' with
  | nil =>
      cases h'
      exact ⟨rfl, rfl⟩
  | token h _ ih =>
      cases h' with
      | token _ hrest' =>
          obtain ⟨rfl, rfl⟩ := ih hrest'
          exact ⟨rfl, rfl⟩
      | directive hopened _ _ => cases h.symm.trans hopened
  | directive h hbody _ ih =>
      cases h' with
      | token hopened _ => cases h.symm.trans hopened
      | directive hopened hbody' hrest' =>
          cases h.symm.trans hopened
          cases hbody.symm.trans hbody'
          obtain ⟨rfl, rfl⟩ := ih hrest'
          exact ⟨rfl, rfl⟩

/-! ## The files that are opened -/

end Directives
