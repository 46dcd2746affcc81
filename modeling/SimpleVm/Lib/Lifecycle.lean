import Mathlib.Data.List.Induction

/-!
# One object behind a static pointer

The pointer starts as `NULL`. Creating makes an object only where the pointer
is `NULL`; destroying frees the object and leaves the pointer as it is. What
is done to an object that was freed, or through `NULL`, has no result.
-/

universe u v w

namespace Lifecycle

inductive Slot (σ : Type u) where
  | absent
  | live (object : σ)
  | freed

inductive Call (ο : Type v) where
  | create
  | destroy
  | use (op : ο)

/-- What creating makes, what destroying does before the object is freed, and
how one operation changes it. `dangling` is the end of a run that touches no object. -/
structure Component (σ : Type u) (ο : Type v) (ε : Type w) where
  new : σ
  release : σ → Except ε Unit
  act : ο → σ → Except ε σ
  dangling : ε

variable {σ : Type u} {ο : Type v} {ε : Type w}

namespace Component

variable (C : Component σ ο ε)

def create : Slot σ → Slot σ
  | .absent => .live C.new
  | .live object => .live object
  | .freed => .freed

def destroy : Slot σ → Except ε (Slot σ)
  | .absent => .ok .absent
  | .live object =>
      match C.release object with
      | .ok _ => .ok .freed
      | .error e => .error e
  | .freed => .error C.dangling

def use (op : ο) : Slot σ → Except ε (Slot σ)
  | .absent => .error C.dangling
  | .live object =>
      match C.act op object with
      | .ok object => .ok (.live object)
      | .error e => .error e
  | .freed => .error C.dangling

def step (slot : Slot σ) : Call ο → Except ε (Slot σ)
  | .create => .ok (C.create slot)
  | .destroy => C.destroy slot
  | .use op => C.use op slot

/-- The calls made so far and where they lead. -/
inductive Reaches : List (Call ο) → Slot σ → Prop
  | start : Reaches [] .absent
  | call {pre : List (Call ο)} {slot slot' : Slot σ} {c : Call ο} :
      Reaches pre slot → C.step slot c = .ok slot' → Reaches (pre ++ [c]) slot'

end Component

/-! ## What the calls so far say -/

/-- There is a create with no destroy behind it. -/
def isOpen (calls : List (Call ο)) : Bool :=
  calls.foldl (fun opened c =>
    match c with
    | .create => true
    | .destroy => false
    | .use _ => opened) false

/-- Something that was created has been destroyed. -/
def Ended (calls : List (Call ο)) : Prop :=
  ∃ pre post, calls = pre ++ .destroy :: post ∧ isOpen pre = true

@[simp] theorem isOpen_create (calls : List (Call ο)) : isOpen (calls ++ [.create]) = true := by
  simp [isOpen]

@[simp] theorem isOpen_destroy (calls : List (Call ο)) :
    isOpen (calls ++ [.destroy]) = false := by
  simp [isOpen]

@[simp] theorem isOpen_use (calls : List (Call ο)) (op : ο) :
    isOpen (calls ++ [.use op]) = isOpen calls := by
  simp [isOpen]

theorem not_ended_nil : ¬ Ended ([] : List (Call ο)) := by
  rintro ⟨pre, post, heq, -⟩
  simp at heq

theorem Ended.append {calls : List (Call ο)} (h : Ended calls) (more : List (Call ο)) :
    Ended (calls ++ more) := by
  obtain ⟨pre, post, rfl, hopen⟩ := h
  exact ⟨pre, post ++ more, by simp, hopen⟩

theorem ended_append_singleton {calls : List (Call ο)} {c : Call ο} :
    Ended (calls ++ [c]) ↔ Ended calls ∨ c = .destroy ∧ isOpen calls = true := by
  constructor
  · rintro ⟨pre, post, heq, hopen⟩
    induction post using List.reverseRecOn with
    | nil =>
        obtain ⟨rfl, hc⟩ := List.append_inj' heq rfl
        exact Or.inr ⟨by simpa using hc, hopen⟩
    | append_singleton post d _ =>
        rw [← List.cons_append, ← List.append_assoc] at heq
        obtain ⟨rfl, -⟩ := List.append_inj' heq rfl
        exact Or.inl ⟨pre, post, rfl, hopen⟩
  · rintro (hended | ⟨rfl, hopen⟩)
    · exact hended.append _
    · exact ⟨calls, [], rfl, hopen⟩

/-- Where something is open again after an end, a create was called in between. -/
theorem exists_create_of_ended {calls : List (Call ο)} (hended : Ended calls)
    (hopen : isOpen calls = true) :
    ∃ pre post, calls = pre ++ .create :: post ∧ Ended pre ∧ isOpen pre = false := by
  induction calls using List.reverseRecOn with
  | nil => exact absurd hended not_ended_nil
  | append_singleton calls c ih =>
      have hbefore : Ended calls → isOpen calls = true →
          ∃ pre post, calls ++ [c] = pre ++ .create :: post ∧ Ended pre ∧ isOpen pre = false := by
        intro h ho
        obtain ⟨pre, post, rfl, hpre⟩ := ih h ho
        exact ⟨pre, post ++ [c], by simp, hpre⟩
      cases c with
      | create =>
          have h : Ended calls := by simpa [ended_append_singleton] using hended
          cases ho : isOpen calls with
          | true => exact hbefore h ho
          | false => exact ⟨calls, [], rfl, h, ho⟩
      | destroy => simp at hopen
      | use op =>
          have h : Ended calls := by simpa [ended_append_singleton] using hended
          exact hbefore h (by simpa using hopen)

/-- Each operation has a create before it with no destroy in between. -/
def WellUsed (calls : List (Call ο)) : Prop :=
  ∀ pre op, pre ++ [.use op] <+: calls → isOpen pre = true

theorem wellUsed_of_no_use {calls : List (Call ο)} (h : ∀ op, .use op ∉ calls) :
    WellUsed calls := by
  intro pre op hpre
  exact absurd (hpre.subset (by simp)) (h op)

theorem wellUsed_one_life (op : ο) : WellUsed [.create, .use op, .destroy] := by
  intro pre op' hpre
  match pre with
  | [] => simp at hpre
  | [c] =>
      obtain ⟨rfl, -⟩ : c = .create ∧ _ := by simpa using hpre
      rfl
  | c :: d :: pre =>
      obtain ⟨-, -, hpre⟩ : c = .create ∧ d = .use op ∧ pre ++ [.use op'] <+: [.destroy] := by
        simpa using hpre
      cases pre with
      | nil => simp at hpre
      | cons e pre => simp at hpre

namespace Component

variable {C : Component σ ο ε} {pre calls : List (Call ο)} {slot : Slot σ}

theorem Reaches.of_append {post : List (Call ο)} (h : C.Reaches (pre ++ post) slot) :
    ∃ slot', C.Reaches pre slot' := by
  induction post using List.reverseRecOn generalizing slot with
  | nil => exact ⟨slot, by simpa using h⟩
  | append_singleton post c ih =>
      rw [← List.append_assoc] at h
      generalize hall : pre ++ post ++ [c] = all at h
      cases h with
      | start => simp at hall
      | call h' _ =>
          obtain ⟨rfl, -⟩ := List.append_inj' hall rfl
          exact ih h'

/-- The calls so far say which of the three states the pointer is in. -/
def Tells (calls : List (Call ο)) : Slot σ → Prop
  | .absent => isOpen calls = false ∧ ¬ Ended calls
  | .live _ => isOpen calls = true ∧ ¬ Ended calls
  | .freed => Ended calls

theorem Tells.step {slot' : Slot σ} {c : Call ο} (h : Tells pre slot)
    (hstep : C.step slot c = .ok slot') : Tells (pre ++ [c]) slot' := by
  cases c with
  | create =>
      obtain rfl : C.create slot = slot' := Except.ok.inj hstep
      cases slot with
      | absent => exact ⟨isOpen_create pre, by simpa [ended_append_singleton] using h.2⟩
      | live object => exact ⟨isOpen_create pre, by simpa [ended_append_singleton] using h.2⟩
      | freed => exact Ended.append h _
  | destroy =>
      cases slot with
      | absent =>
          obtain rfl := Except.ok.inj hstep
          refine ⟨isOpen_destroy pre, ?_⟩
          simpa [ended_append_singleton, h.1] using h.2
      | live object =>
          simp only [Component.step, Component.destroy] at hstep
          split at hstep
          · obtain rfl := Except.ok.inj hstep
            exact ended_append_singleton.mpr (Or.inr ⟨rfl, h.1⟩)
          · cases hstep
      | freed => cases hstep
  | use op =>
      cases slot with
      | absent => cases hstep
      | live object =>
          simp only [Component.step, Component.use] at hstep
          split at hstep
          · obtain rfl := Except.ok.inj hstep
            exact ⟨by simpa using h.1, by simpa [ended_append_singleton] using h.2⟩
          · cases hstep
      | freed => cases hstep

theorem Reaches.tells (h : C.Reaches calls slot) : Tells calls slot := by
  induction h with
  | start => exact ⟨rfl, not_ended_nil⟩
  | call _ hstep ih => exact ih.step hstep

/-! ## Runs that treat the object well -/

/-- An operation finds a live object, a destroy comes to its end, and a
create that is the first or follows a destroy makes a new one. -/
def Served (C : Component σ ο ε) (pre : List (Call ο)) (slot : Slot σ) : Call ο → Prop
  | .create => isOpen pre = false → C.step slot .create = .ok (.live C.new)
  | .destroy => ∃ slot', C.step slot .destroy = .ok slot'
  | .use _ => ∃ object, slot = .live object

def Lawful (C : Component σ ο ε) (calls : List (Call ο)) : Prop :=
  ∀ pre c, pre ++ [c] <+: calls → ∀ slot, C.Reaches pre slot → C.Served pre slot c

/-- No create and no destroy is reached once something created was destroyed. -/
def Spared (C : Component σ ο ε) (calls : List (Call ο)) : Prop :=
  ∀ pre c, pre ++ [c] <+: calls → c = .create ∨ c = .destroy →
    ∀ slot, C.Reaches pre slot → ¬ Ended pre

/-- A live object can be taken apart. -/
def Releases (C : Component σ ο ε) : Prop :=
  ∀ pre object, C.Reaches pre (.live object) → C.release object = .ok ()

theorem Releases.of_invariant {P : σ → Prop} (hnew : P C.new)
    (hact : ∀ op object object', P object → C.act op object = .ok object' → P object')
    (hrelease : ∀ object, P object → C.release object = .ok ()) : C.Releases := by
  have hslot : ∀ pre slot, C.Reaches pre slot → ∀ object, slot = .live object → P object := by
    intro pre slot hreach
    induction hreach with
    | start =>
        intro object heq
        cases heq
    | @call pre slot slot' c _ hstep ih =>
        rintro object rfl
        cases c with
        | create =>
            cases slot with
            | absent =>
                cases hstep
                exact hnew
            | live old =>
                cases hstep
                exact ih _ rfl
            | freed => cases hstep
        | destroy =>
            simp only [Component.step, Component.destroy] at hstep
            split at hstep
            · cases hstep
            · split at hstep <;> cases hstep
            · cases hstep
        | use op =>
            simp only [Component.step, Component.use] at hstep
            split at hstep
            · cases hstep
            · split at hstep
              · next hok =>
                  cases hstep
                  exact hact op _ _ (ih _ rfl) hok
              · cases hstep
            · cases hstep
  intro pre object hreach
  exact hrelease object (hslot pre _ hreach object rfl)

theorem Releases.not_lawful (h : C.Releases) : ¬ C.Lawful [.create, .destroy, .create] := by
  intro hlawful
  have hlive : C.Reaches [.create] (.live C.new) := Reaches.start.call (c := .create) rfl
  have hfreed : C.Reaches [.create, .destroy] .freed := by
    refine hlive.call (c := .destroy) ?_
    simp only [Component.step, Component.destroy, h _ _ hlive]
  cases hlawful [.create, .destroy] .create List.prefix_rfl _ hfreed rfl

theorem Spared.served (h : C.Spared calls) (hrelease : C.Releases) (hused : WellUsed calls)
    {c : Call ο} (hpre : pre ++ [c] <+: calls) (hreach : C.Reaches pre slot) :
    C.Served pre slot c := by
  have htells := hreach.tells
  cases c with
  | create =>
      intro hclosed
      cases slot with
      | absent => rfl
      | live object => exact absurd htells.1 (by simp [hclosed])
      | freed => exact absurd htells (h pre .create hpre (Or.inl rfl) _ hreach)
  | destroy =>
      cases slot with
      | absent => exact ⟨.absent, rfl⟩
      | live object =>
          refine ⟨.freed, ?_⟩
          simp only [Component.step, Component.destroy, hrelease pre object hreach]
      | freed => exact absurd htells (h pre .destroy hpre (Or.inr rfl) _ hreach)
  | use op =>
      have hopen := hused pre op hpre
      cases slot with
      | absent => exact absurd htells.1 (by simp [hopen])
      | live object => exact ⟨object, rfl⟩
      | freed =>
          -- the create that opened it again was reached behind the destroy
          obtain ⟨before, after, rfl, hended, -⟩ := exists_create_of_ended htells hopen
          obtain ⟨slot', hbefore⟩ := hreach.of_append
          have hprefix : before ++ [.create] <+: calls :=
            List.IsPrefix.trans ⟨after ++ [.use op], by simp⟩ hpre
          exact absurd hended (h before .create hprefix (Or.inl rfl) _ hbefore)

theorem Lawful.not_ended (h : C.Lawful calls) {c : Call ο} (hpre : pre ++ [c] <+: calls)
    (hc : c = .create ∨ c = .destroy) (hreach : C.Reaches pre slot) : ¬ Ended pre := by
  intro hended
  -- a create that ought to make a new object and finds the freed one
  have hlost : ∀ before slot', before ++ [.create] <+: calls → C.Reaches before slot' →
      Ended before → isOpen before = false → False := by
    intro before slot' hprefix hbefore hend hclosed
    have hnew := h before .create hprefix slot' hbefore hclosed
    have htells := hbefore.tells
    cases slot' with
    | absent => exact htells.2 hend
    | live object => exact htells.2 hend
    | freed => cases hnew
  rcases hc with rfl | rfl
  · cases hopen : isOpen pre with
    | false => exact hlost pre slot hpre hreach hended hopen
    | true =>
        obtain ⟨before, after, rfl, hend, hclosed⟩ := exists_create_of_ended hended hopen
        obtain ⟨slot', hbefore⟩ := hreach.of_append
        have hprefix : before ++ [.create] <+: calls :=
          List.IsPrefix.trans ⟨after ++ [.create], by simp⟩ hpre
        exact hlost before slot' hprefix hbefore hend hclosed
  · obtain ⟨slot', hdestroy⟩ := h pre .destroy hpre slot hreach
    have htells := hreach.tells
    cases slot with
    | absent => exact htells.2 hended
    | live object => exact htells.2 hended
    | freed => cases hdestroy

theorem lawful_iff (hrelease : C.Releases) (hused : WellUsed calls) :
    C.Lawful calls ↔ C.Spared calls := by
  constructor
  · intro h pre c hpre hc slot hreach
    exact h.not_ended hpre hc hreach
  · intro h pre c hpre slot hreach
    exact h.served hrelease hused hpre hreach

end Component

end Lifecycle
