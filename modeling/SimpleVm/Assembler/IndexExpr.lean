import Mathlib.Data.List.Count
import SimpleVm.Assembler.Parser

/-!
# What the actions compute of an index expression

The operands are low words of addresses, as the rule for a constant hands on
the item it built. What they come to is given apart from the actions: a
division of zero keeps its left operand, as the value of a rule whose action
does not set it. The rules for `/` and `%` test that operand where the divisor
is meant, so they report each division of a zero and trap at other divisions
by zero.
-/

namespace SimpleVm.Parser

namespace IndexOp

def isDivision : IndexOp → Bool
  | .div | .mod => true
  | .add | .sub | .mul => false

def apply (x y : Int32) : IndexOp → Int32
  | .add => x + y
  | .sub => x - y
  | .mul => x * y
  | .div => if y = 0 then x else x / y
  | .mod => if y = 0 then x else x % y

end IndexOp

namespace IndexExpr

def constants : IndexExpr → ℕ
  | .const _ => 1
  | .binary _ lhs rhs => lhs.constants + rhs.constants
  | .paren expr => expr.constants

/-- What the actions compute: a constant is the low word of the address of its item, of which the
first is the `n`-th one of the source. -/
def value (env : Env) (n : ℕ) : IndexExpr → Int32
  | .const _ => Int32.ofNat (env.itemAddr n)
  | .binary op lhs rhs => op.apply (lhs.value env n) (rhs.value env (n + lhs.constants))
  | .paren expr => expr.value env n

/-- The operands of every `/` and `%` as the actions have them, from left to right. -/
def divisions (env : Env) (n : ℕ) : IndexExpr → List (Int32 × Int32)
  | .const _ => []
  | .binary op lhs rhs =>
      lhs.divisions env n ++ rhs.divisions env (n + lhs.constants) ++
        if op.isDivision then [(lhs.value env n, rhs.value env (n + lhs.constants))] else []
  | .paren expr => expr.divisions env n

end IndexExpr

/-- The operands with which a division instruction traps. -/
def traps (p : Int32 × Int32) : Bool :=
  decide (p.2 = 0 ∨ (p.1 = Int32.minValue ∧ p.2 = -1))

def guarded (p : Int32 × Int32) : Bool := decide (p.1 = 0)

/-- What the actions leave of an expression with the divisions `ds`. -/
def outcome (st : State) (v : Int32) (n : ℕ) (ds : List (Int32 × Int32)) :
    Except Halt (Int32 × State) :=
  if ds.any fun p => !guarded p && traps p then .error .trap
  else .ok (v, { st with items := st.items + n, errors := st.errors + ds.countP guarded })

theorem idiv_eq (x y : Int32) :
    idiv x y = if traps (x, y) then .error .trap else .ok (x / y) := by
  simp only [idiv, traps, decide_eq_true_eq]

theorem imod_eq (x y : Int32) :
    imod x y = if traps (x, y) then .error .trap else .ok (x % y) := by
  simp only [imod, traps, decide_eq_true_eq]

theorem ne_zero_of_not_traps {x y : Int32} (h : traps (x, y) = false) : y ≠ 0 := by
  rintro rfl
  simp [traps] at h

theorem indexOp_eq (st : State) (x y : Int32) (op : IndexOp) :
    indexOp st x y op = outcome st (op.apply x y) 0 (if op.isDivision then [(x, y)] else []) := by
  cases op with
  | add => simp [indexOp, outcome, IndexOp.apply, IndexOp.isDivision]
  | sub => simp [indexOp, outcome, IndexOp.apply, IndexOp.isDivision]
  | mul => simp [indexOp, outcome, IndexOp.apply, IndexOp.isDivision]
  | div =>
      by_cases hx : x = 0
      · simp [indexOp, outcome, IndexOp.apply, IndexOp.isDivision, guarded, hx]
      · cases ht : traps (x, y) with
        | true => simp [indexOp, outcome, IndexOp.isDivision, guarded, hx, idiv_eq, ht]
        | false =>
            simp [indexOp, outcome, IndexOp.apply, IndexOp.isDivision, guarded, hx, idiv_eq, ht,
              ne_zero_of_not_traps ht]
  | mod =>
      by_cases hx : x = 0
      · simp [indexOp, outcome, IndexOp.apply, IndexOp.isDivision, guarded, hx]
      · cases ht : traps (x, y) with
        | true => simp [indexOp, outcome, IndexOp.isDivision, guarded, hx, imod_eq, ht]
        | false =>
            simp [indexOp, outcome, IndexOp.apply, IndexOp.isDivision, guarded, hx, imod_eq, ht,
              ne_zero_of_not_traps ht]

theorem outcome_bind (st : State) (v : Int32) (n : ℕ) (ds : List (Int32 × Int32))
    {f : Int32 × State → Except Halt (Int32 × State)} {w : Int32} {m : ℕ}
    {ds' : List (Int32 × Int32)} (hf : ∀ st', st'.items = st.items + n →
      f (v, st') = outcome st' w m ds') :
    (outcome st v n ds >>= f) = outcome st w (n + m) (ds ++ ds') := by
  unfold outcome
  rw [List.any_append, List.countP_append]
  cases hds : ds.any fun p => !guarded p && traps p with
  | true => simp
  | false =>
      simp only [Bool.false_eq_true, if_false, ok_bind, Bool.false_or]
      rw [hf _ rfl, outcome]
      simp only [Nat.add_assoc]

/-- The actions compute the value of the expression, unless a division whose
left operand is not zero traps; they report each division of a zero. -/
theorem indexExpr_eq (env : Env) (st : State) (expr : IndexExpr) :
    indexExpr env st expr =
      outcome st (expr.value env st.items) expr.constants (expr.divisions env st.items) := by
  induction expr generalizing st with
  | const c => simp [indexExpr, indexConstant, outcome, IndexExpr.value, IndexExpr.constants,
      IndexExpr.divisions]
  | binary op lhs rhs ihl ihr =>
      rw [indexExpr, ihl, IndexExpr.divisions, IndexExpr.constants, IndexExpr.value,
        List.append_assoc]
      apply outcome_bind
      intro st' hitems
      rw [← hitems]
      simp only [ihr]
      rw [← Nat.add_zero rhs.constants]
      apply outcome_bind
      intro st'' _
      exact indexOp_eq st'' _ _ op
  | paren expr ih => exact ih st

theorem outcome_errors_lt_iff {st st' : State} {v w : Int32} {n : ℕ} {ds : List (Int32 × Int32)}
    (hrun : outcome st v n ds = .ok (w, st')) :
    st.errors < st'.errors ↔ ∃ p ∈ ds, p.1 = 0 := by
  unfold outcome at hrun
  cases hds : ds.any fun p => !guarded p && traps p with
  | true => simp [hds] at hrun
  | false =>
      simp only [hds, Bool.false_eq_true, if_false, Except.ok.injEq, Prod.mk.injEq] at hrun
      obtain ⟨-, rfl⟩ := hrun
      simp [guarded, List.countP_pos_iff]

end SimpleVm.Parser
