import Mathlib.Algebra.GroupWithZero.Nat
import SimpleVm.Lib.Expansion
import SimpleVm.Lib.Lexing

/-!
# Inclusion while scanning

The tokens of a lexer are delivered as they are scanned. When a directive is
delivered the file that it names is put on a stack of inputs; at the end of an
input the one below goes on, in the state that the lexer is in. The stack
delivers the expansion as long as every included file, scanned from the
initial state, leaves the lexer there.
-/

universe u v w x

/-- How the tokens of a lexer name files. -/
structure Inclusion {α : Type u} {σ : Type v} {τ : Type w} (L : Lexer α σ τ) (ν : Type x) where
  initial : σ
  arms : τ → Bool
  name : τ → Option ν
  files : ν → Option (List α)
  arms_of_name : ∀ t f, name t = some f → arms t = false
  /-- A token that can name a file leaves the lexer in its initial state. -/
  state_of_name : ∀ s a input t f, (L.step s a input).2.1 = some t → name t = some f →
    (L.step s a input).1 = initial

namespace Inclusion

variable {α : Type u} {σ : Type v} {τ : Type w} {ν : Type x} {L : Lexer α σ τ}
variable (I : Inclusion L ν)

def tokens (input : List α) : List τ := (L.scan I.initial input).1

def EndsInitial (input : List α) : Prop := (L.scan I.initial input).2 = I.initial

/-- The directives among the tokens, each file scanned on its own. -/
def toDirectives : Directives τ ν where
  arms := I.arms
  name := I.name
  body f := (I.files f).map I.tokens
  arms_of_name := I.arms_of_name

/-! ## The stack of inputs -/

structure Config (α : Type u) (σ : Type v) where
  state : σ
  armed : Bool
  stack : List (List α)

/-- What a token does to the stack. `none` when the named file does not exist. -/
def push (armed : Bool) (t : τ) (stack : List (List α)) : Option (List (List α)) :=
  match I.toDirectives.opened armed t with
  | none => some stack
  | some f => (I.files f).map fun text => text :: stack

/-- One lexeme, or the end of one input. There is no step without inputs, and
none when a file does not exist. -/
def step (c : Config α σ) : Option (Option τ × Config α σ) :=
  match c.stack with
  | [] => none
  | [] :: stack => some (none, { c with stack := stack })
  | (a :: input) :: stack =>
      match L.step c.state a input with
      | (s, none, rest) => some (none, { c with state := s, stack := rest :: stack })
      | (s, some t, rest) =>
          (I.push c.armed t (rest :: stack)).map fun stack => (some t, ⟨s, I.arms t, stack⟩)

/-- Some number of steps, and the tokens that are delivered in them. -/
inductive Reaches : Config α σ → List τ → Config α σ → Prop
  | refl (c) : Reaches c [] c
  | head {c t c' ts last} (hstep : I.step c = some (t, c')) (hrest : Reaches c' ts last) :
      Reaches c (t.toList ++ ts) last

def start (input : List α) : Config α σ := ⟨I.initial, false, [input]⟩

/-- All inputs are read to their end, and these are the tokens. -/
def Delivers (input : List α) (ts : List τ) : Prop :=
  ∃ last, last.stack = [] ∧ I.Reaches (I.start input) ts last

variable {I}

theorem Reaches.trans {c₁ c₂ c₃ : Config α σ} {ts ts' : List τ} (h : I.Reaches c₁ ts c₂)
    (h' : I.Reaches c₂ ts' c₃) : I.Reaches c₁ (ts ++ ts') c₃ := by
  induction h with
  | refl c => exact h'
  | head hstep _ ih =>
      rw [List.append_assoc]
      exact .head hstep (ih h')

theorem step_of_stack_nil {c : Config α σ} (hc : c.stack = []) : I.step c = none := by
  rw [step, hc]

theorem Reaches.of_stack_nil {c last : Config α σ} {ts : List τ} (h : I.Reaches c ts last)
    (hc : c.stack = []) : ts = [] := by
  cases h with
  | refl => rfl
  | head hstep _ => cases (step_of_stack_nil hc).symm.trans hstep

theorem Reaches.exists_rest {c mid last : Config α σ} {ts ts' : List τ} (h : I.Reaches c ts mid)
    (h' : I.Reaches c ts' last) (hlast : last.stack = []) :
    ∃ rest, I.Reaches mid rest last ∧ ts' = ts ++ rest := by
  induction h generalizing ts' with
  | refl c => exact ⟨ts', h', rfl⟩
  | @head c t c' ts mid hstep _ ih =>
      cases h' with
      | refl => cases (step_of_stack_nil hlast).symm.trans hstep
      | head hstep' hrest' =>
          obtain ⟨rfl, rfl⟩ := Prod.mk.inj (Option.some.inj (hstep.symm.trans hstep'))
          obtain ⟨rest, hrun, rfl⟩ := ih hrest'
          exact ⟨rest, hrun, (List.append_assoc _ _ _).symm⟩

theorem Delivers.unique {input : List α} {ts ts' : List τ} (h : I.Delivers input ts)
    (h' : I.Delivers input ts') : ts = ts' := by
  obtain ⟨last, hlast, hrun⟩ := h
  obtain ⟨last', hlast', hrun'⟩ := h'
  obtain ⟨rest, hrest, rfl⟩ := hrun.exists_rest hrun' hlast'
  rw [hrest.of_stack_nil hlast, List.append_nil]

theorem step_silent {s : σ} {armed : Bool} {a : α} {input : List α} {stack : List (List α)}
    (h : (L.step s a input).2.1 = none) :
    I.step ⟨s, armed, (a :: input) :: stack⟩ =
      some (none, ⟨(L.step s a input).1, armed, (L.step s a input).2.2 :: stack⟩) := by
  rcases hlexeme : L.step s a input with ⟨s', t, rest⟩
  rw [hlexeme] at h
  cases h
  simp only [step, hlexeme]

theorem step_token {s : σ} {armed : Bool} {a : α} {input : List α} {stack stack' : List (List α)}
    {t : τ} (h : (L.step s a input).2.1 = some t)
    (hpush : I.push armed t ((L.step s a input).2.2 :: stack) = some stack') :
    I.step ⟨s, armed, (a :: input) :: stack⟩ =
      some (some t, ⟨(L.step s a input).1, I.arms t, stack'⟩) := by
  rcases hlexeme : L.step s a input with ⟨s', t', rest⟩
  rw [hlexeme] at h hpush
  cases h
  simp only [step, hlexeme, hpush, Option.map_some]

theorem reaches_of_runs {s s' : σ} {input rest : List α} {ts : List τ} {armed armed' : Bool}
    (h : L.Runs s input ts s' rest) (hexp : I.toDirectives.Expands armed ts ts [] armed')
    (stack : List (List α)) :
    I.Reaches ⟨s, armed, input :: stack⟩ ts ⟨s', armed', rest :: stack⟩ := by
  induction h generalizing armed with
  | refl s input =>
      cases hexp
      exact .refl _
  | @head s a input s' t rest ts last left hstep _ ih =>
      cases t with
      | none => exact .head (step_silent (by rw [hstep])) (by rw [hstep]; exact ih hexp)
      | some t =>
          cases hexp with
          | token hopened hrest =>
              have hpush : I.push armed t ((L.step s a input).2.2 :: stack) =
                  some ((L.step s a input).2.2 :: stack) := by rw [push, hopened]
              have hnext := step_token (by rw [hstep]) hpush
              rw [hstep] at hnext
              exact .head hnext (ih hrest)

/-! ## The stack delivers the expansion -/

variable (I)

/-- The tokens to come, were every input below the first scanned from the initial state. -/
def pending : σ → List (List α) → List τ
  | _, [] => []
  | s, input :: stack => (L.scan s input).1 ++ pending I.initial stack

/-- Every input but the last one will leave the lexer in the initial state. -/
def Clean : σ → List (List α) → Prop
  | _, [] => True
  | _, [_] => True
  | s, input :: below :: stack =>
      (L.scan s input).2 = I.initial ∧ Clean I.initial (below :: stack)

variable {I}

theorem Clean.pop {s : σ} {stack : List (List α)} (h : I.Clean s ([] :: stack)) :
    I.Clean s stack ∧ I.pending s stack = I.pending s ([] :: stack) := by
  cases stack with
  | nil => exact ⟨trivial, rfl⟩
  | cons below stack =>
      obtain rfl : s = I.initial := h.1
      exact ⟨h.2, rfl⟩

theorem Clean.lexeme {s : σ} {a : α} {input : List α} {stack : List (List α)}
    (h : I.Clean s ((a :: input) :: stack)) :
    I.Clean (L.step s a input).1 ((L.step s a input).2.2 :: stack) := by
  cases stack with
  | nil => trivial
  | cons below stack =>
      refine ⟨?_, h.2⟩
      have hlast := h.1
      rwa [L.scan_cons] at hlast

theorem Clean.push {text : List α} {stack : List (List α)} (htext : I.EndsInitial text)
    (h : I.Clean I.initial stack) : I.Clean I.initial (text :: stack) := by
  cases stack with
  | nil => trivial
  | cons below stack => exact ⟨htext, h⟩

/-- The file that the next lexeme opens. -/
def opens (I : Inclusion L ν) (c : Config α σ) : Option ν :=
  match c.stack with
  | (a :: input) :: _ => (L.step c.state a input).2.1.bind (I.toDirectives.opened c.armed)
  | _ => none

/-- What one step does to the stack. -/
theorem step_cases {c c' : Config α σ} {t : Option τ} (h : I.step c = some (t, c')) :
    c.stack = [] :: c'.stack ∨ ∃ a input stack rest, c.stack = (a :: input) :: stack ∧
      rest.length ≤ input.length ∧ ((I.opens c = none ∧ c'.stack = rest :: stack) ∨
        ∃ f text, I.opens c = some f ∧ I.files f = some text ∧ c'.stack = text :: rest :: stack) := by
  rcases c with ⟨s, armed, stack⟩
  match stack with
  | [] => cases h
  | [] :: stack =>
      cases h
      exact Or.inl rfl
  | (a :: input) :: stack =>
      right
      have hle := L.length_rest_le s a input
      rcases hlexeme : L.step s a input with ⟨s', token, rest⟩
      rw [hlexeme] at hle
      refine ⟨a, input, stack, rest, rfl, hle, ?_⟩
      cases token with
      | none =>
          simp only [step, hlexeme] at h
          cases h
          exact Or.inl ⟨by simp only [opens, hlexeme, Option.bind_none], rfl⟩
      | some t' =>
          have hopens : I.opens ⟨s, armed, (a :: input) :: stack⟩ =
              I.toDirectives.opened armed t' := by
            simp only [opens, hlexeme, Option.bind_some]
          simp only [step, hlexeme, push] at h
          rw [hopens]
          cases hopened : I.toDirectives.opened armed t' with
          | none =>
              rw [hopened] at h
              cases h
              exact Or.inl ⟨rfl, rfl⟩
          | some f =>
              rw [hopened] at h
              cases hfile : I.files f with
              | none =>
                  simp only [hfile, Option.map_none] at h
                  cases h
              | some text =>
                  simp only [hfile, Option.map_some] at h
                  cases h
                  exact Or.inr ⟨f, text, rfl, hfile, rfl⟩

/-- Opening a file ends the run exactly when the file does not exist. -/
theorem step_eq_none_of_opens {c : Config α σ} {f : ν} (h : I.opens c = some f) :
    I.step c = none ↔ I.files f = none := by
  rcases c with ⟨s, armed, stack⟩
  match stack with
  | [] => cases h
  | [] :: stack => cases h
  | (a :: input) :: stack =>
      rcases hlexeme : L.step s a input with ⟨s', token, rest⟩
      simp only [opens, hlexeme] at h
      obtain ⟨t, rfl, hopened⟩ := Option.bind_eq_some_iff.mp h
      simp only [step, hlexeme, push, hopened, Option.map_eq_none_iff]

/-- The stack never grows over a limit at which no file is opened. -/
theorem Reaches.depth_le {c last : Config α σ} {ts : List τ} {limit : ℕ} (h : I.Reaches c ts last)
    (hlimit : ∀ ts last, I.Reaches c ts last → last.stack.length = limit →
      ∀ f, I.opens last = some f → I.files f = none) (hc : c.stack.length ≤ limit) :
    last.stack.length ≤ limit := by
  induction h with
  | refl c => exact hc
  | @head c t c' ts last hstep _ ih =>
      have hrest : ∀ ts last, I.Reaches c' ts last → last.stack.length = limit →
          ∀ f, I.opens last = some f → I.files f = none :=
        fun ts last hlast => hlimit _ last (.head hstep hlast)
      apply ih hrest
      rcases step_cases hstep with hpop | ⟨a, input, stack, rest, hstack, -, hcase⟩
      · rw [hpop, List.length_cons] at hc
        exact Nat.le_of_succ_le hc
      · rw [hstack, List.length_cons] at hc
        rcases hcase with ⟨-, hnext⟩ | ⟨f, text, hopens, hfile, hnext⟩
        · rwa [hnext, List.length_cons]
        · have hne : stack.length + 1 ≠ limit := by
            intro heq
            have hnone := hlimit [] c (.refl c) (by rw [hstack, List.length_cons, heq]) f hopens
            rw [hfile] at hnone
            cases hnone
          rw [hnext, List.length_cons, List.length_cons]
          omega

/-- Where `room` more files can be opened at most, an input is read to its end or
the run ends inside it. -/
theorem exists_end_of_room (room : ℕ) : ∀ (input : List α) {c : Config α σ} {stack : List (List α)},
    c.stack = input :: stack →
      (∀ ts last, I.Reaches c ts last → last.stack.length ≤ stack.length + 1 + room) →
        ∃ ts last, I.Reaches c ts last ∧ (I.step last = none ∨ last.stack = stack) := by
  induction room using Nat.strongRecOn with
  | ind room ihroom =>
      intro input
      induction hlen : input.length using Nat.strongRecOn generalizing input with
      | ind n ihlength =>
          intro c stack hstack hdepth
          cases hstep : I.step c with
          | none => exact ⟨[], c, .refl c, Or.inl hstep⟩
          | some next =>
              obtain ⟨t, c'⟩ := next
              have hdepth' : ∀ ts last, I.Reaches c' ts last →
                  last.stack.length ≤ stack.length + 1 + room :=
                fun ts last hlast => hdepth _ last (.head hstep hlast)
              rcases step_cases hstep with
                hpop | ⟨a, input', stack', rest, hstack', hrest, hcase⟩
              · rw [hstack] at hpop
                obtain ⟨-, rfl⟩ := List.cons.inj hpop
                exact ⟨_, c', .head hstep (.refl c'), Or.inr rfl⟩
              · rw [hstack] at hstack'
                obtain ⟨rfl, rfl⟩ := List.cons.inj hstack'
                have hshort : rest.length < n := by
                  rw [← hlen, List.length_cons]
                  exact Nat.lt_succ_of_le hrest
                -- with `rest` on top again the input has become shorter
                have hrun : ∀ {ts last}, I.Reaches c' ts last → last.stack = rest :: stack →
                    ∃ ts last, I.Reaches c ts last ∧ (I.step last = none ∨ last.stack = stack) := by
                  intro ts mid hmid htop
                  obtain ⟨ts', last, hlast, hend⟩ := ihlength rest.length hshort rest rfl htop
                    (fun ts last hlast => hdepth' _ last (hmid.trans hlast))
                  exact ⟨_, last, .head hstep (hmid.trans hlast), hend⟩
                rcases hcase with ⟨-, hnext⟩ | ⟨f, text, -, -, hnext⟩
                · exact hrun (.refl c') hnext
                · have hroom : stack.length + 1 + 1 ≤ stack.length + 1 + room := by
                    have hopened := hdepth' [] c' (.refl c')
                    rwa [hnext, List.length_cons, List.length_cons] at hopened
                  have hsame : stack.length + 1 + room = (rest :: stack).length + 1 + (room - 1) := by
                    rw [List.length_cons]
                    omega
                  obtain ⟨ts, mid, hmid, hend⟩ := ihroom (room - 1) (by omega) text hnext
                    (hsame ▸ hdepth')
                  rcases hend with hhalt | htop
                  · exact ⟨_, mid, .head hstep hmid, Or.inl hhalt⟩
                  · exact hrun hmid htop

/-- A run with a bounded stack comes to an end. -/
theorem exists_halt_of_depth_le {c : Config α σ} {bound : ℕ}
    (hdepth : ∀ ts last, I.Reaches c ts last → last.stack.length ≤ bound) :
    ∃ ts last, I.Reaches c ts last ∧ I.step last = none := by
  induction hstack : c.stack generalizing c with
  | nil => exact ⟨[], c, .refl c, step_of_stack_nil hstack⟩
  | cons input stack ih =>
      obtain ⟨ts, mid, hmid, hend⟩ := exists_end_of_room bound input hstack
        (fun ts last hlast => Nat.le_trans (hdepth ts last hlast) (Nat.le_add_left _ _))
      rcases hend with hhalt | hbelow
      · exact ⟨ts, mid, hmid, hhalt⟩
      · obtain ⟨ts', last, hlast, hhalt⟩ :=
          ih (fun ts last hlast => hdepth _ last (hmid.trans hlast)) hbelow
        exact ⟨_, last, hmid.trans hlast, hhalt⟩

end Inclusion
