import Mathlib.Data.List.Basic
import Mathlib.Data.Nat.Basic
import Mathlib.Control.Basic
import SimpleVm.Lib.Reading

/-!
# Operator precedence

A grammar of binary operators and parentheses is ambiguous. Levels for the
operators, all of which associate to the left, leave one tree for a text. A
shift-reduce parser decides with the level of the operator on its stack and
of the one in front of it which of the two to do, and runs an action with each
reduction. No action runs when the next lexeme is an error.
-/

universe u

namespace OperatorPrecedence

/-! ## Trees -/

inductive Lexeme (κ ι : Type u) where
  | leaf (c : κ)
  | operator (op : ι)
  | openParen
  | closeParen
  deriving DecidableEq

inductive Tree (κ ι : Type u) where
  | leaf (c : κ)
  | binary (op : ι) (lhs rhs : Tree κ ι)
  | paren (expr : Tree κ ι)
  deriving DecidableEq

/-- What is done at a reduction, in some monad. -/
structure Actions (κ ι V : Type u) (m : Type u → Type u) where
  leaf : κ → m V
  binary : ι → V → V → m V
  paren : V → m V

variable {κ ι V : Type u}

namespace Tree

def fringe : Tree κ ι → List (Lexeme κ ι)
  | .leaf c => [.leaf c]
  | .binary op lhs rhs => lhs.fringe ++ .operator op :: rhs.fringe
  | .paren expr => .openParen :: (expr.fringe ++ [.closeParen])

/-- The operator at the root of the tree, unless it stands in parentheses, is held together
at least as strongly as `n`. -/
def AtLeast (level : ι → ℕ) (n : ℕ) : Tree κ ι → Prop
  | .binary op _ _ => n ≤ level op
  | _ => True

/-- Operands are held together more strongly than what joins them, on the left also
equally. -/
def Ordered (level : ι → ℕ) : Tree κ ι → Prop
  | .leaf _ => True
  | .binary op lhs rhs =>
      lhs.Ordered level ∧ rhs.Ordered level ∧ lhs.AtLeast level (level op) ∧
        rhs.AtLeast level (level op + 1)
  | .paren expr => expr.Ordered level

instance (level : ι → ℕ) (n : ℕ) (t : Tree κ ι) : Decidable (t.AtLeast level n) :=
  match t with
  | .leaf _ => .isTrue trivial
  | .binary op _ _ => inferInstanceAs (Decidable (n ≤ level op))
  | .paren _ => .isTrue trivial

/-- The actions in the order of the reductions: operands first, from left to right. -/
def eval {m : Type u → Type u} [Monad m] (act : Actions κ ι V m) : Tree κ ι → m V
  | .leaf c => act.leaf c
  | .binary op lhs rhs => do
      let l ← lhs.eval act
      let r ← rhs.eval act
      act.binary op l r
  | .paren expr => do
      let v ← expr.eval act
      act.paren v

theorem AtLeast.mono {level : ι → ℕ} {m n : ℕ} {t : Tree κ ι} (h : t.AtLeast level n)
    (hle : m ≤ n) : t.AtLeast level m := by
  cases t with
  | binary op lhs rhs => exact Nat.le_trans hle h
  | _ => trivial

theorem fringe_ne_nil (t : Tree κ ι) : t.fringe ≠ [] := by
  cases t <;> simp [fringe]

end Tree

/-! ## The parser -/

/-- An open parenthesis, or an operand and the operator behind it. -/
abbrev Frame (ι V : Type u) := Option (V × ι)

/-- There is a value when an operand has been read and an operator can follow. -/
structure Config (ι V : Type u) where
  stack : List (Frame ι V)
  value : Option V

def isOpen (stack : List (Frame ι V)) : Bool := stack.any Option.isNone

section Parser

variable {m : Type u → Type u} [Monad m] (level : ι → ℕ) (act : Actions κ ι V m)

/-- Operators of the stack that are reduced in front of one of level `n`. -/
def isReduced (n : ℕ) : Frame ι V → Bool
  | some (_, op) => decide (n ≤ level op)
  | none => false

/-- The reductions down to a parenthesis or to an operator that is weaker than `n`. -/
def reduce (n : ℕ) : List (Frame ι V) → V → m V
  | some (l, op) :: stack, v =>
      if n ≤ level op then do
        let v ← act.binary op l v
        reduce n stack v
      else pure v
  | _, v => pure v

def step (c : Config ι V) (t : Lexeme κ ι) : m (Option (Config ι V)) :=
  match c.value, t with
  | none, .leaf k => do
      let v ← act.leaf k
      pure (some ⟨c.stack, some v⟩)
  | none, .openParen => pure (some ⟨none :: c.stack, none⟩)
  | some v, .operator op => do
      let v ← reduce level act (level op) c.stack v
      pure (some ⟨some (v, op) :: c.stack.dropWhile (isReduced level (level op)), none⟩)
  | some v, .closeParen =>
      if isOpen c.stack then do
        let v ← reduce level act 0 c.stack v
        let v ← act.paren v
        pure (some ⟨(c.stack.dropWhile (isReduced level 0)).tail, some v⟩)
      else pure none
  | _, _ => pure none

/-- The end of the text, where everything is reduced. -/
def finish (c : Config ι V) : m (Option V) :=
  match c.value with
  | some v =>
      if isOpen c.stack then pure none
      else do
        let v ← reduce level act 0 c.stack v
        pure (some v)
  | none => pure none

def run (c : Config ι V) : List (Lexeme κ ι) → m (Option V)
  | [] => finish level act c
  | t :: ts => do
      match ← step level act c t with
      | some c => run c ts
      | none => pure none

def parse (ts : List (Lexeme κ ι)) : m (Option V) := run level act ⟨[], none⟩ ts

/-- The steps alone, where the text goes on with an error. -/
def steps (c : Config ι V) : List (Lexeme κ ι) → m PUnit
  | [] => pure .unit
  | t :: ts => do
      match ← step level act c t with
      | some c => steps c ts
      | none => pure .unit

end Parser

/-- The actions that build the tree. -/
def treeActions : Actions κ ι (Tree κ ι) Id := ⟨.leaf, .binary, .paren⟩

def parseTree (level : ι → ℕ) (ts : List (Lexeme κ ι)) : Option (Tree κ ι) :=
  (parse level treeActions ts).run

/-! ## Trees are read -/

section Reads

variable {m : Type u → Type u} [Monad m] [LawfulMonad m] {level : ι → ℕ} {act : Actions κ ι V m}

/-- The operator on top of the stack does not take the tree as its left operand's end. -/
def Above (level : ι → ℕ) (t : Tree κ ι) : List (Frame ι V) → Prop
  | some (_, op) :: _ => t.AtLeast level (level op + 1)
  | _ => True

/-- What can come next when everything of at least the level `n` is reduced for it. -/
def Next (level : ι → ℕ) (t : Tree κ ι) (stack : List (Frame ι V)) : List (Lexeme κ ι) → Prop
  | [] => isOpen stack = false
  | .operator op :: _ => t.AtLeast level (level op)
  | .closeParen :: _ => isOpen stack = true
  | _ => False

theorem run_reduce {l r : V} {op : ι} {lhs rhs : Tree κ ι} {stack : List (Frame ι V)}
    {ts : List (Lexeme κ ι)} (hnext : Next level (.binary op lhs rhs) stack ts) :
    run level act ⟨some (l, op) :: stack, some r⟩ ts =
      act.binary op l r >>= fun v => run level act ⟨stack, some v⟩ ts := by
  cases ts with
  | nil =>
      have hopen : isOpen (some (l, op) :: stack) = false := hnext
      have hopen' : isOpen stack = false := hnext
      simp [run, finish, hopen, hopen', reduce]
  | cons t ts =>
      cases t with
      | leaf c => cases hnext
      | operator op' =>
          have hle : level op' ≤ level op := hnext
          simp [run, step, reduce, isReduced, hle]
      | openParen => cases hnext
      | closeParen =>
          have hopen : isOpen (some (l, op) :: stack) = true := hnext
          have hopen' : isOpen stack = true := hnext
          simp [run, step, reduce, isReduced, hopen, hopen']

/-- The run over the text of a tree does what evaluating the tree does. -/
theorem run_fringe {t : Tree κ ι} (ht : t.Ordered level) {stack : List (Frame ι V)}
    {ts : List (Lexeme κ ι)} (habove : Above level t stack) (hnext : Next level t stack ts) :
    run level act ⟨stack, none⟩ (t.fringe ++ ts) =
      t.eval act >>= fun v => run level act ⟨stack, some v⟩ ts := by
  induction t generalizing stack ts with
  | leaf c => simp [Tree.fringe, Tree.eval, run, step]
  | binary op lhs rhs ihl ihr =>
      obtain ⟨hl, hr, hlop, hrop⟩ := ht
      have habovel : Above level lhs stack := by
        rcases stack with _ | ⟨_ | ⟨_, op'⟩, stack⟩
        · trivial
        · trivial
        · exact hlop.mono habove
      -- the operator below is weaker, so nothing is reduced for this one
      have hstay : ∀ v : V, reduce level act (level op) stack v = pure v := by
        intro v
        rcases stack with _ | ⟨_ | ⟨l, op'⟩, stack⟩
        · rfl
        · rfl
        · exact if_neg (Nat.not_le_of_lt habove)
      have hkeep : stack.dropWhile (isReduced level (level op)) = stack := by
        rcases stack with _ | ⟨_ | ⟨l, op'⟩, stack⟩
        · rfl
        · rfl
        · have hlt : level op' < level op := habove
          exact List.dropWhile_cons_of_neg (by simp [isReduced, hlt])
      have hright : ∀ l : V, run level act ⟨some (l, op) :: stack, none⟩ (rhs.fringe ++ ts) =
          rhs.eval act >>= fun r => act.binary op l r >>= fun v =>
            run level act ⟨stack, some v⟩ ts := by
        intro l
        have habover : Above level rhs (some (l, op) :: stack) := hrop
        have hnextr : Next level rhs (some (l, op) :: stack) ts := by
          rcases ts with _ | ⟨_ | op' | _ | _, ts⟩
          · exact hnext
          · exact hnext
          · exact hrop.mono (Nat.le_succ_of_le hnext)
          · exact hnext
          · exact hnext
        rw [ihr hr habover hnextr]
        congr 1
        funext r
        exact run_reduce hnext
      have hnextl : Next level lhs stack (.operator op :: (rhs.fringe ++ ts)) := hlop
      have hsplit : (Tree.binary op lhs rhs).fringe ++ ts =
          lhs.fringe ++ .operator op :: (rhs.fringe ++ ts) := by simp [Tree.fringe]
      rw [hsplit, ihl hl habovel hnextl]
      simp [run, step, hstay, hkeep, hright, Tree.eval]
  | paren expr ih =>
      have hsplit : (Tree.paren expr : Tree κ ι).fringe ++ ts =
          .openParen :: (expr.fringe ++ .closeParen :: ts) := by simp [Tree.fringe]
      have hinner : run level act ⟨none :: stack, none⟩ (expr.fringe ++ .closeParen :: ts) =
          expr.eval act >>= fun v => run level act ⟨none :: stack, some v⟩ (.closeParen :: ts) :=
        ih ht trivial rfl
      rw [hsplit, run]
      simp [step, hinner, run, isOpen, reduce, isReduced, Tree.eval]

theorem parse_fringe {t : Tree κ ι} (ht : t.Ordered level) :
    parse level act t.fringe = some <$> t.eval act := by
  have hrun : run level act ⟨[], none⟩ (t.fringe ++ []) =
      t.eval act >>= fun v => run level act ⟨[], some v⟩ [] :=
    run_fringe ht trivial rfl
  rw [List.append_nil] at hrun
  rw [parse, hrun]
  simp [run, finish, isOpen, reduce]

theorem eval_treeActions (t : Tree κ ι) : t.eval treeActions = t := by
  induction t with
  | leaf c => rfl
  | binary op lhs rhs ihl ihr =>
      rw [Tree.eval, ihl, ihr]
      rfl
  | paren expr ih =>
      rw [Tree.eval, ih]
      rfl

theorem parseTree_fringe {t : Tree κ ι} (ht : t.Ordered level) :
    parseTree level t.fringe = some t := by
  rw [parseTree, parse_fringe ht, eval_treeActions]
  rfl

end Reads

/-! ## Only trees are read -/

section Sound

variable {level : ι → ℕ}

def stackFringe : List (Frame ι (Tree κ ι)) → List (Lexeme κ ι)
  | [] => []
  | none :: stack => stackFringe stack ++ [.openParen]
  | some (l, op) :: stack => stackFringe stack ++ (l.fringe ++ [.operator op])

/-- Between two parentheses the operators get stronger towards the top. -/
def Rising (level : ι → ℕ) : List (Frame ι (Tree κ ι)) → Prop
  | [] => True
  | none :: stack => Rising level stack
  | some (l, op) :: stack =>
      l.Ordered level ∧ l.AtLeast level (level op) ∧ Above level (.binary op l l) stack ∧
        Rising level stack

namespace Config

/-- What has been read. -/
def fringe (c : Config ι (Tree κ ι)) : List (Lexeme κ ι) :=
  stackFringe c.stack ++ (c.value.map Tree.fringe).getD []

structure Ordered (level : ι → ℕ) (c : Config ι (Tree κ ι)) : Prop where
  rising : Rising level c.stack
  value : ∀ t ∈ c.value, t.Ordered level ∧ ∀ n, t.AtLeast level n

end Config

theorem above_of_atLeast {t : Tree κ ι} (h : ∀ n, t.AtLeast level n)
    (stack : List (Frame ι V)) : Above level t stack := by
  rcases stack with _ | ⟨_ | ⟨_, op⟩, stack⟩
  · trivial
  · trivial
  · exact h _

/-- What is left on the stack is weaker. -/
theorem above_dropWhile {n : ℕ} {t : Tree κ ι} (h : t.AtLeast level n)
    (stack : List (Frame ι V)) : Above level t (stack.dropWhile (isReduced level n)) := by
  induction stack with
  | nil => trivial
  | cons frame stack ih =>
      rcases frame with _ | ⟨l, op⟩
      · trivial
      · by_cases hle : n ≤ level op
        · rw [List.dropWhile_cons_of_pos (by simp [isReduced, hle])]
          exact ih
        · rw [List.dropWhile_cons_of_neg (by simp [isReduced, hle])]
          exact h.mono (Nat.lt_of_not_le hle)

theorem reduce_sound {n : ℕ} {stack : List (Frame ι (Tree κ ι))} {v : Tree κ ι}
    (hstack : Rising level stack) (hv : v.Ordered level) (habove : Above level v stack)
    (hn : v.AtLeast level n) :
    Rising level (stack.dropWhile (isReduced level n)) ∧
      (reduce level treeActions n stack v).run.Ordered level ∧
      (reduce level treeActions n stack v).run.AtLeast level n ∧
      stackFringe (stack.dropWhile (isReduced level n)) ++
          (reduce level treeActions n stack v).run.fringe =
        stackFringe stack ++ v.fringe := by
  induction stack generalizing v with
  | nil => exact ⟨hstack, hv, hn, rfl⟩
  | cons frame stack ih =>
      rcases frame with _ | ⟨l, op⟩
      · exact ⟨hstack, hv, hn, rfl⟩
      · by_cases hle : n ≤ level op
        · obtain ⟨hl, hlop, hbelow, hrest⟩ := hstack
          have hbinary : (Tree.binary op l v).Ordered level := ⟨hl, hv, hlop, habove⟩
          have hstep : (reduce level treeActions n (some (l, op) :: stack) v).run =
              (reduce level treeActions n stack (.binary op l v)).run := by
            rw [reduce, if_pos hle]
            rfl
          have hfringe : stackFringe (some (l, op) :: stack) ++ v.fringe =
              stackFringe stack ++ (Tree.binary op l v).fringe := by
            simp [stackFringe, Tree.fringe]
          rw [hstep, hfringe, List.dropWhile_cons_of_pos (by simp [isReduced, hle])]
          exact ih hrest hbinary hbelow hle
        · have hstep : (reduce level treeActions n (some (l, op) :: stack) v).run = v := by
            rw [reduce, if_neg hle]
            rfl
          rw [hstep, List.dropWhile_cons_of_neg (by simp [isReduced, hle])]
          exact ⟨hstack, hv, hn, rfl⟩

/-- Without a parenthesis everything is reduced, and otherwise down to one. -/
theorem dropWhile_isReduced_zero (level : ι → ℕ) (stack : List (Frame ι V)) :
    isOpen stack = false ∧ stack.dropWhile (isReduced level 0) = [] ∨
      isOpen stack = true ∧ ∃ rest, stack.dropWhile (isReduced level 0) = none :: rest := by
  induction stack with
  | nil => exact .inl ⟨rfl, rfl⟩
  | cons frame stack ih =>
      cases frame with
      | none => exact .inr ⟨rfl, stack, rfl⟩
      | some p =>
          obtain ⟨l, op⟩ := p
          have hopen : isOpen (some (l, op) :: stack) = isOpen stack := rfl
          have hdrop : (some (l, op) :: stack).dropWhile (isReduced level 0) =
              stack.dropWhile (isReduced level 0) :=
            List.dropWhile_cons_of_pos (by simp [isReduced])
          rw [hopen, hdrop]
          exact ih

theorem step_sound {c c' : Config ι (Tree κ ι)} {t : Lexeme κ ι} (hc : c.Ordered level)
    (hstep : (step level treeActions c t).run = some c') :
    c'.Ordered level ∧ c'.fringe = c.fringe ++ [t] := by
  obtain ⟨stack, value⟩ := c
  obtain ⟨hrising, hvalue⟩ := hc
  cases value with
  | none =>
      cases t with
      | leaf k =>
          obtain rfl := Option.some.inj hstep
          refine ⟨⟨hrising, ?_⟩, ?_⟩
          · intro t ht
            obtain rfl := Option.some.inj ht
            exact ⟨trivial, fun _ => trivial⟩
          · simp [Config.fringe, Tree.fringe, treeActions]
      | openParen =>
          obtain rfl := Option.some.inj hstep
          refine ⟨⟨hrising, fun _ h => (nomatch h)⟩, ?_⟩
          simp [Config.fringe, stackFringe]
      | operator op => cases hstep
      | closeParen => cases hstep
  | some v =>
      obtain ⟨hv, hatom⟩ := hvalue v rfl
      have habove := above_of_atLeast hatom stack
      cases t with
      | leaf k => cases hstep
      | openParen => cases hstep
      | operator op =>
          obtain ⟨hrising', hv', hop, hfringe⟩ :=
            reduce_sound hrising hv habove (hatom (level op))
          obtain rfl := Option.some.inj hstep
          have hweaker : Above level (.binary op v v)
              (stack.dropWhile (isReduced level (level op))) :=
            above_dropWhile (Nat.le_refl _) stack
          refine ⟨⟨⟨hv', hop, hweaker, hrising'⟩, fun _ h => (nomatch h)⟩, ?_⟩
          simp only [Config.fringe, stackFringe, Option.map_none, Option.getD_none,
            Option.map_some, Option.getD_some, List.append_nil, ← hfringe, List.append_assoc]
          rfl
      | closeParen =>
          obtain ⟨hrising', hv', -, hfringe⟩ := reduce_sound hrising hv habove (hatom 0)
          rcases dropWhile_isReduced_zero level stack with
            ⟨hopen, -⟩ | ⟨hopen, rest, hdrop⟩
          · simp only [step, hopen] at hstep
            cases hstep
          · simp only [step, hopen, hdrop] at hstep
            obtain rfl := Option.some.inj hstep
            rw [hdrop] at hrising' hfringe
            refine ⟨⟨hrising', ?_⟩, ?_⟩
            · intro t ht
              obtain rfl := Option.some.inj ht
              exact ⟨hv', fun _ => trivial⟩
            · simp only [Config.fringe, Option.map_some, Option.getD_some, ← hfringe,
                stackFringe, List.append_assoc]
              rfl

theorem run_sound {c : Config ι (Tree κ ι)} {ts : List (Lexeme κ ι)} {t : Tree κ ι}
    (hc : c.Ordered level) (hrun : (run level treeActions c ts).run = some t) :
    t.Ordered level ∧ c.fringe ++ ts = t.fringe := by
  induction ts generalizing c with
  | nil =>
      obtain ⟨stack, value⟩ := c
      cases value with
      | none => cases hrun
      | some v =>
          obtain ⟨hv, hatom⟩ := hc.value v rfl
          have habove := above_of_atLeast hatom stack
          obtain ⟨-, hv', -, hfringe⟩ := reduce_sound hc.rising hv habove (hatom 0)
          rcases dropWhile_isReduced_zero level stack with ⟨hopen, hdrop⟩ | ⟨hopen, -⟩
          · simp only [run, finish, hopen] at hrun
            obtain rfl := Option.some.inj hrun
            rw [hdrop] at hfringe
            refine ⟨hv', ?_⟩
            simp only [Config.fringe, Option.map_some, Option.getD_some, List.append_nil,
              ← hfringe, stackFringe]
            rfl
          · simp only [run, finish, hopen] at hrun
            cases hrun
  | cons x ts ih =>
      cases hstep : (step level treeActions c x).run with
      | none =>
          rw [run, show step level treeActions c x = pure none from hstep] at hrun
          cases hrun
      | some c' =>
          rw [run, show step level treeActions c x = pure (some c') from hstep] at hrun
          obtain ⟨hc', hfringe⟩ := step_sound hc hstep
          obtain ⟨ht, hrest⟩ := ih hc' hrun
          refine ⟨ht, ?_⟩
          rw [← hrest, hfringe, List.append_assoc, List.singleton_append]

/-- The parser gives the one tree with this text in which the operators are ordered. -/
theorem parseTree_eq_some_iff {ts : List (Lexeme κ ι)} {t : Tree κ ι} :
    parseTree level ts = some t ↔ t.Ordered level ∧ t.fringe = ts := by
  constructor
  · intro h
    have hstart : (⟨[], none⟩ : Config ι (Tree κ ι)).Ordered level :=
      ⟨trivial, fun _ h => (nomatch h)⟩
    obtain ⟨ht, hfringe⟩ := run_sound hstart h
    exact ⟨ht, hfringe.symm⟩
  · rintro ⟨ht, rfl⟩
    exact parseTree_fringe ht

end Sound

/-! ## Other texts are refused, whatever the actions -/

section Refused

variable {level : ι → ℕ}

/-- What the decisions of the parser depend on: the operators and parentheses on the stack, and
whether there is a value. -/
structure Shape (ι : Type u) where
  stack : List (Option ι)
  hasValue : Bool

def Config.shape (c : Config ι V) : Shape ι where
  stack := c.stack.map (Option.map Prod.snd)
  hasValue := c.value.isSome

def Shape.dropReduced (level : ι → ℕ) (n : ℕ) (stack : List (Option ι)) : List (Option ι) :=
  stack.dropWhile fun op => (op.map fun op => decide (n ≤ level op)).getD false

def Shape.isOpen (stack : List (Option ι)) : Bool := stack.any Option.isNone

def Shape.step (level : ι → ℕ) (s : Shape ι) (t : Lexeme κ ι) : Option (Shape ι) :=
  match s.hasValue, t with
  | false, .leaf _ => some ⟨s.stack, true⟩
  | false, .openParen => some ⟨none :: s.stack, false⟩
  | true, .operator op => some ⟨some op :: dropReduced level (level op) s.stack, false⟩
  | true, .closeParen =>
      if isOpen s.stack then some ⟨(dropReduced level 0 s.stack).tail, true⟩ else none
  | _, _ => none

def Shape.accepts (level : ι → ℕ) (s : Shape ι) : List (Lexeme κ ι) → Bool
  | [] => s.hasValue && !isOpen s.stack
  | t :: ts =>
      match s.step level t with
      | some s => s.accepts level ts
      | none => false

theorem isOpen_shape (stack : List (Frame ι V)) :
    Shape.isOpen (stack.map (Option.map Prod.snd)) = isOpen stack := by
  rw [isOpen, Shape.isOpen, List.any_map]
  congr 1
  funext frame
  cases frame <;> rfl

theorem dropReduced_shape (n : ℕ) (stack : List (Frame ι V)) :
    Shape.dropReduced level n (stack.map (Option.map Prod.snd)) =
      (stack.dropWhile (isReduced level n)).map (Option.map Prod.snd) := by
  rw [Shape.dropReduced, List.dropWhile_map]
  congr 2
  funext frame
  cases frame <;> rfl

variable {m : Type u → Type u} [Monad m]

/-- Every action is in the set. -/
structure Actions.Within (act : Actions κ ι V m) (P : Programs m) : Prop where
  leaf : ∀ c, P.Has (act.leaf c)
  binary : ∀ op l r, P.Has (act.binary op l r)
  paren : ∀ v, P.Has (act.paren v)

variable {act : Actions κ ι V m} {P : Programs m}

theorem Tree.eval_within (hact : act.Within P) (t : Tree κ ι) : P.Has (t.eval act) := by
  induction t with
  | leaf c => exact hact.leaf c
  | binary op lhs rhs ihl ihr => exact P.bind ihl fun l => P.bind ihr fun r => hact.binary op l r
  | paren expr ih => exact P.bind ih hact.paren

theorem reduce_within (hact : act.Within P) (n : ℕ) (stack : List (Frame ι V)) (v : V) :
    P.Has (reduce level act n stack v) := by
  induction stack generalizing v with
  | nil => exact P.pure v
  | cons frame stack ih =>
      rcases frame with _ | ⟨l, op⟩
      · exact P.pure v
      · rw [reduce]
        split
        · exact P.bind (hact.binary op l v) ih
        · exact P.pure v

variable [LawfulMonad m]

theorem step_shape (level : ι → ℕ) (hact : act.Within P) (c : Config ι V) (t : Lexeme κ ι) :
    match c.shape.step level t with
    | some s => ∃ (X : Type u) (x : m X) (f : X → Config ι V),
        P.Has x ∧ step level act c t = (x >>= fun v => pure (some (f v))) ∧ ∀ v, (f v).shape = s
    | none => step level act c t = pure none := by
  obtain ⟨stack, value⟩ := c
  cases value with
  | none =>
      cases t with
      | leaf k =>
          exact ⟨V, act.leaf k, fun v => ⟨stack, some v⟩, hact.leaf k, rfl, fun _ => rfl⟩
      | openParen =>
          refine ⟨PUnit, pure .unit, fun _ => ⟨none :: stack, none⟩, P.pure _, ?_, fun _ => rfl⟩
          rw [pure_bind]
          rfl
      | operator op => rfl
      | closeParen => rfl
  | some v =>
      cases t with
      | leaf k => rfl
      | openParen => rfl
      | operator op =>
          refine ⟨V, reduce level act (level op) stack v, fun v =>
            ⟨some (v, op) :: stack.dropWhile (isReduced level (level op)), none⟩,
            reduce_within hact _ _ _, rfl, fun v => ?_⟩
          simp [Config.shape, dropReduced_shape]
      | closeParen =>
          simp only [Shape.step, Config.shape, Option.isSome_some, isOpen_shape]
          cases hopen : isOpen stack with
          | false => simp [step, hopen]
          | true =>
              refine ⟨V, reduce level act 0 stack v >>= act.paren, fun v =>
                ⟨(stack.dropWhile (isReduced level 0)).tail, some v⟩,
                P.bind (reduce_within hact _ _ _) hact.paren, ?_, fun v => ?_⟩
              · simp [step, hopen]
              · simp [dropReduced_shape]

theorem run_shape (level : ι → ℕ) (hact : act.Within P) (c : Config ι V)
    (ts : List (Lexeme κ ι)) :
    if c.shape.accepts level ts then ∃ x : m V, P.Has x ∧ run level act c ts = some <$> x
    else ∃ x : m PUnit, P.Has x ∧ run level act c ts = x >>= fun _ => pure none := by
  induction ts generalizing c with
  | nil =>
      obtain ⟨stack, value⟩ := c
      simp only [Shape.accepts, Config.shape, isOpen_shape]
      cases value with
      | none => exact ⟨pure .unit, P.pure _, by simp [run, finish]⟩
      | some v =>
          cases hopen : isOpen stack with
          | false =>
              exact ⟨reduce level act 0 stack v, reduce_within hact _ _ _,
                by simp [run, finish, hopen]⟩
          | true => exact ⟨pure .unit, P.pure _, by simp [run, finish, hopen]⟩
  | cons t ts ih =>
      have hstep := step_shape level hact c t
      rw [Shape.accepts]
      cases hshape : c.shape.step level t with
      | none =>
          rw [hshape] at hstep
          simp only at hstep
          exact ⟨pure .unit, P.pure _, by simp [run, hstep]⟩
      | some s =>
          rw [hshape] at hstep
          obtain ⟨X, x, f, hx, hstep, hs⟩ := hstep
          have hrest := fun v => ih (f v)
          simp only [hs] at hrest
          simp only
          have hrun : run level act c (t :: ts) = x >>= fun v => run level act (f v) ts := by
            simp [run, hstep]
          by_cases haccepts : s.accepts level ts
          · simp only [if_pos haccepts] at hrest ⊢
            choose y hy hrest using hrest
            exact ⟨x >>= y, P.bind hx hy, by simp [hrun, hrest]⟩
          · simp only [if_neg haccepts] at hrest ⊢
            choose y hy hrest using hrest
            exact ⟨x >>= y, P.bind hx hy, by simp [hrun, hrest]⟩

/-- A text of no tree is refused after some of the actions. -/
theorem parse_refuses {ts : List (Lexeme κ ι)} (hact : act.Within P)
    (h : parseTree level ts = none) :
    ∃ x : m PUnit, P.Has x ∧ parse level act ts = x >>= fun _ => pure none := by
  have hall : (treeActions : Actions κ ι (Tree κ ι) Id).Within
      ⟨fun _ => True, fun _ => trivial, fun _ _ => trivial⟩ :=
    ⟨fun _ => trivial, fun _ _ _ => trivial, fun _ => trivial⟩
  have htree := run_shape level hall (⟨[], none⟩ : Config ι (Tree κ ι)) ts
  have hrun := run_shape level hact (⟨[], none⟩ : Config ι V) ts
  have hsame : (⟨[], none⟩ : Config ι V).shape = (⟨[], none⟩ : Config ι (Tree κ ι)).shape := rfl
  rw [hsame] at hrun
  split at htree
  · obtain ⟨x, -, hx⟩ := htree
    rw [parseTree, parse, hx] at h
    cases h
  · next haccepts =>
      rw [if_neg haccepts] at hrun
      exact hrun

theorem steps_within (hact : act.Within P) (c : Config ι V) (ts : List (Lexeme κ ι)) :
    P.Has (steps level act c ts) := by
  induction ts generalizing c with
  | nil => exact P.pure _
  | cons t ts ih =>
      have hstep := step_shape level hact c t
      cases hshape : c.shape.step level t with
      | none =>
          rw [hshape] at hstep
          simp only at hstep
          rw [steps, hstep, pure_bind]
          exact P.pure _
      | some s =>
          rw [hshape] at hstep
          obtain ⟨X, x, f, hx, hstep, -⟩ := hstep
          simp only [steps, hstep, bind_assoc, pure_bind]
          exact P.bind hx fun v => ih (f v)

end Refused

end OperatorPrecedence
