import Mathlib.Control.Basic

/-!
# Reading from the front

A reader takes symbols from the front of its input and runs actions as it
goes, or refuses the input after some of them. What it does next must not
depend on the values of the actions. A reader that runs no actions and builds
what it reads then says what another one with the same text does.
-/

universe u

/-- A set of programs that is closed under sequencing. -/
structure Programs (m : Type u → Type u) [Monad m] where
  Has : ∀ {α : Type u}, m α → Prop
  pure : ∀ {α : Type u} (a : α), Has (Pure.pure a)
  bind : ∀ {α β : Type u} {x : m α} {f : α → m β}, Has x → (∀ a, Has (f a)) → Has (x >>= f)

namespace Reading

variable {τ α β γ δ : Type} {m : Type → Type} [Monad m]

/-- An action, and the input behind what was read. -/
def done (x : m α) (rest : List τ) : m (Option (α × List τ)) := do
  let a ← x
  pure (some (a, rest))

def refuse : m (Option (α × List τ)) := pure none

def andThen (r : m (Option (α × List τ))) (f : α → List τ → m (Option (β × List τ))) :
    m (Option (β × List τ)) := do
  match ← r with
  | some (a, rest) => f a rest
  | none => pure none

/-- All that is in front of `rest` was one text, and has a value or none. -/
def whole (x : m (Option α)) (rest : List τ) : m (Option (α × List τ)) := do
  match ← x with
  | some a => pure (some (a, rest))
  | none => pure none

def expect [DecidableEq τ] (t : τ) (input : List τ) (f : List τ → m (Option (α × List τ))) :
    m (Option (α × List τ)) :=
  match input with
  | t' :: rest => if t' = t then f rest else refuse
  | [] => refuse

@[simp] theorem expect_cons [DecidableEq τ] (t : τ) (rest : List τ)
    (f : List τ → m (Option (α × List τ))) : expect t (t :: rest) f = f rest := if_pos rfl

/-! ## Without effects -/

section Pure

variable {f : α → List τ → Id (Option (β × List τ))} {r : Id (Option (α × List τ))}
  {rest : List τ} {b : β}

theorem andThen_eq_some :
    (andThen r f).run = some (b, rest) ↔
      ∃ a mid, r.run = some (a, mid) ∧ (f a mid).run = some (b, rest) := by
  cases hr : r.run with
  | none =>
      rw [show r = pure none from hr]
      simp [andThen]
  | some p =>
      obtain ⟨a, mid⟩ := p
      rw [show r = pure (some (a, mid)) from hr]
      simp [andThen, and_assoc]

theorem expect_eq_some [DecidableEq τ] {t : τ} {input : List τ}
    {g : List τ → Id (Option (β × List τ))} :
    (expect t input g).run = some (b, rest) ↔
      ∃ more, input = t :: more ∧ (g more).run = some (b, rest) := by
  cases input with
  | nil => simp [expect, refuse]
  | cons t' more =>
      by_cases ht : t' = t
      · subst ht
        simp
      · simp [expect, refuse, ht]

end Pure

/-! ## Two readers of the same inputs -/

/-- Where the second reader takes something, the first one takes it too and does for it what
`ev` says. Where it refuses, so does the first one, after a program in the set. -/
def Follows (P : Programs m) (ev : β → m α) (q : m (Option (α × List τ)))
    (p : Id (Option (β × List τ))) : Prop :=
  match p.run with
  | some (b, rest) => q = done (ev b) rest
  | none => ∃ x : m PUnit, P.Has x ∧ q = x >>= fun _ => pure none

variable {P : Programs m} {ev : β → m α} {ev' : δ → m γ}

theorem Follows.done {x : m α} {y : Id β} (h : x = ev y.run) (rest : List τ) :
    Follows P ev (Reading.done x rest) (Reading.done y rest) := by
  rw [h]
  rfl

theorem Follows.of_some {q : m (Option (α × List τ))} {p : Id (Option (β × List τ))}
    (h : Follows P ev q p) {b : β} {rest : List τ} (hp : p.run = some (b, rest)) :
    q = Reading.done (ev b) rest := by
  rwa [Follows, hp] at h

theorem Follows.of_none {q : m (Option (α × List τ))} {p : Id (Option (β × List τ))}
    (h : Follows P ev q p) (hp : p.run = none) :
    ∃ x : m PUnit, P.Has x ∧ q = x >>= fun _ => pure none := by
  rwa [Follows, hp] at h

variable [LawfulMonad m]

theorem done_andThen (x : m α) (rest : List τ) (f : α → List τ → m (Option (β × List τ))) :
    andThen (done x rest) f = x >>= fun a => f a rest := by
  simp [andThen, done]

theorem bind_done (x : m α) (f : α → m β) (rest : List τ) :
    (x >>= fun a => done (f a) rest) = done (x >>= f) rest := by
  simp [done]

theorem whole_some (x : m α) (rest : List τ) : whole (some <$> x) rest = done x rest := by
  simp [whole, done]

theorem whole_none {σ : Type} (x : m σ) (rest : List τ) :
    whole (x >>= fun _ => (pure none : m (Option α))) rest = x >>= fun _ => pure none := by
  simp [whole]

theorem Follows.refuse :
    Follows P ev (Reading.refuse : m (Option (α × List τ))) Reading.refuse :=
  ⟨pure .unit, P.pure _, by simp [Reading.refuse]⟩

theorem Follows.bind_refuse {σ : Type} {x : m σ} (hx : P.Has x) :
    Follows P ev (x >>= fun _ => (Reading.refuse : m (Option (α × List τ)))) Reading.refuse :=
  ⟨x >>= fun _ => pure .unit, P.bind hx fun _ => P.pure _, by simp [Reading.refuse]⟩

/-- Behind some actions, what the first reader has done so far is carried along. -/
theorem Follows.bind_andThen {σ : Type} {x : m σ} (hx : P.Has x) {q : m (Option (α × List τ))}
    {p : Id (Option (β × List τ))} {f : σ → α → List τ → m (Option (γ × List τ))}
    {g : β → List τ → Id (Option (δ × List τ))} (h : Follows P ev q p)
    (hrest : ∀ b rest, Follows P ev' (x >>= fun s => ev b >>= fun a => f s a rest) (g b rest)) :
    Follows P ev' (x >>= fun s => Reading.andThen q (f s)) (Reading.andThen p g) := by
  cases hp : p.run with
  | none =>
      obtain ⟨y, hy, rfl⟩ := h.of_none hp
      rw [show p = pure none from hp]
      exact ⟨x >>= fun _ => y, P.bind hx fun _ => hy, by simp [Reading.andThen]⟩
  | some read =>
      obtain ⟨b, rest⟩ := read
      obtain rfl := h.of_some hp
      have hg : Reading.andThen p g = g b rest := by
        rw [show p = pure (some (b, rest)) from hp]
        rfl
      simp only [hg, done_andThen]
      exact hrest b rest

theorem Follows.andThen {q : m (Option (α × List τ))} {p : Id (Option (β × List τ))}
    {f : α → List τ → m (Option (γ × List τ))} {g : β → List τ → Id (Option (δ × List τ))}
    (h : Follows P ev q p)
    (hrest : ∀ b rest, Follows P ev' (ev b >>= fun a => f a rest) (g b rest)) :
    Follows P ev' (Reading.andThen q f) (Reading.andThen p g) := by
  have hbind : Follows P ev' ((pure () : m Unit) >>= fun _ => Reading.andThen q f)
      (Reading.andThen p g) :=
    .bind_andThen (P.pure _) h (by simpa using hrest)
  simpa using hbind

theorem Follows.bind_expect [DecidableEq τ] {σ : Type} {x : m σ} (hx : P.Has x) (t : τ)
    (input : List τ) {f : σ → List τ → m (Option (γ × List τ))}
    {g : List τ → Id (Option (δ × List τ))}
    (hrest : ∀ rest, Follows P ev' (x >>= fun s => f s rest) (g rest)) :
    Follows P ev' (x >>= fun s => Reading.expect t input (f s)) (Reading.expect t input g) := by
  cases input with
  | nil => exact .bind_refuse hx
  | cons t' rest =>
      by_cases ht : t' = t
      · subst ht
        simp only [expect_cons]
        exact hrest rest
      · simp only [Reading.expect, if_neg ht]
        exact .bind_refuse hx

end Reading
