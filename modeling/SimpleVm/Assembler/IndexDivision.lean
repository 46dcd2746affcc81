import SimpleVm.Assembler.IndexValue

/-!
# Division by zero in index expressions

A divisor is zero when the number it stands for is. The actions look at the
left operand instead, and at an address instead of a number, so they cannot
tell. All goes well without a division, or where every dividend is a product
of so many addresses that it is zero in 32 bits: then each division is reported,
as it should be if one of the divisors is zero.
-/

namespace SimpleVm.Parser

namespace IndexExpr

/-- The number an expression stands for, where no divisor in it is zero. -/
def number : IndexExpr → Option ℤ
  | .const c => some c.number
  | .binary op lhs rhs => do
      let x ← lhs.number
      let y ← rhs.number
      op.exact x y
  | .paren expr => expr.number

def hasDivision : IndexExpr → Bool
  | .const _ => false
  | .binary op lhs rhs => op.isDivision || lhs.hasDivision || rhs.hasDivision
  | .paren expr => expr.hasDivision

/-- Some divisor is zero. -/
def dividesByZero : IndexExpr → Bool
  | .const _ => false
  | .binary op lhs rhs =>
      (op.isDivision && rhs.number = some 0) || lhs.dividesByZero || rhs.dividesByZero
  | .paren expr => expr.dividesByZero

end IndexExpr

/-- Wherever the items are, the actions return, and have reported an error exactly when some
divisor is zero. -/
def DivisionSafe (k : ℕ) (expr : IndexExpr) : Prop :=
  ∀ env, Aligned k env → ∀ st, ∃ v st', indexExpr env st expr = .ok (v, st') ∧
    (st.errors < st'.errors ↔ expr.dividesByZero = true)

variable {k : ℕ} {env : Env} {expr : IndexExpr}

theorem hasDivision_of_dividesByZero (h : expr.dividesByZero = true) :
    expr.hasDivision = true := by
  induction expr with
  | const c => cases h
  | binary op lhs rhs ihl ihr =>
      simp only [IndexExpr.dividesByZero, Bool.or_eq_true, Bool.and_eq_true] at h
      simp only [IndexExpr.hasDivision, Bool.or_eq_true]
      rcases h with (⟨hdiv, -⟩ | hl) | hr
      · exact .inl (.inl hdiv)
      · exact .inl (.inr (ihl hl))
      · exact .inr (ihr hr)
  | paren expr ih => exact ih h

/-- Where an expression has an order every dividend is zero. -/
theorem Aligned.dividends_zero (h : Aligned k env) {n m : ℕ} (hm : expr.order k = some m) :
    ∀ p ∈ expr.divisions env n, p.1 = 0 := by
  induction expr generalizing n m with
  | const c => exact List.forall_mem_nil _
  | binary op lhs rhs ihl ihr =>
      simp only [IndexExpr.order, Option.bind_eq_bind, Option.bind_eq_some_iff] at hm
      obtain ⟨a, ha, b, hb, hop⟩ := hm
      rw [IndexExpr.divisions]
      refine List.forall_mem_append.mpr ⟨List.forall_mem_append.mpr ⟨ihl ha, ihr hb⟩, ?_⟩
      split
      · next hdiv =>
          obtain ⟨-, hvl⟩ := h.multiple (n := n) ha
          simpa using hvl.eq_zero (le_of_division_order hop hdiv)
      · exact List.forall_mem_nil _
  | paren expr ih => exact ih hm

theorem divisions_eq_nil_iff (env : Env) (n : ℕ) (expr : IndexExpr) :
    expr.divisions env n = [] ↔ expr.hasDivision = false := by
  induction expr generalizing n with
  | const c => exact iff_of_true rfl rfl
  | binary op lhs rhs ihl ihr =>
      simp only [IndexExpr.divisions, IndexExpr.hasDivision, List.append_eq_nil_iff, ihl, ihr,
        Bool.or_eq_false_iff]
      cases op.isDivision with
      | true => simp
      | false => simp
  | paren expr ih => exact ih n

/-- Where an expression has an order, the actions return and report every division. -/
theorem Aligned.reports_iff (h : Aligned k env) {m : ℕ} (hm : expr.order k = some m) (st : State) :
    ∃ v st', indexExpr env st expr = .ok (v, st') ∧
      (st.errors < st'.errors ↔ expr.hasDivision = true) := by
  obtain ⟨st', hrun⟩ := indexExpr_eq_ok_iff.mpr ⟨(h.multiple hm).1, rfl⟩
  refine ⟨_, st', hrun, ?_⟩
  rw [indexExpr_eq] at hrun
  rw [outcome_errors_lt_iff hrun, ← Bool.not_eq_false, ← divisions_eq_nil_iff env st.items]
  constructor
  · rintro ⟨p, hp, -⟩ hnil
    rw [hnil] at hp
    cases hp
  · intro hne
    obtain ⟨p, rest, hcons⟩ := List.exists_cons_of_ne_nil hne
    have hp : p ∈ expr.divisions env st.items := hcons ▸ List.mem_cons_self
    exact ⟨p, hp, h.dividends_zero hm p hp⟩

theorem exists_order_of_divisionSafe (h : DivisionSafe k expr) : ∃ m, expr.order k = some m := by
  have hattains := attains_order ⟨fun _ => 0, fun _ => none, 0⟩ k 0 expr
  cases hm : expr.order k with
  | some m => exact ⟨m, rfl⟩
  | none =>
      rw [hm] at hattains
      obtain ⟨marked, hfaults⟩ := hattains
      obtain ⟨v, st', hrun, -⟩ := h _ (aligned_placed _ k marked) initial
      have hnone := (indexExpr_eq_ok_iff.mp ⟨st', hrun⟩).1
      rw [show initial.items = 0 from rfl, hfaults] at hnone
      cases hnone

theorem exists_order_of_not_hasDivision (k : ℕ) (h : expr.hasDivision = false) :
    ∃ m, expr.order k = some m := by
  induction expr with
  | const c => exact ⟨k, rfl⟩
  | binary op lhs rhs ihl ihr =>
      simp only [IndexExpr.hasDivision, Bool.or_eq_false_iff] at h
      obtain ⟨⟨hdiv, hl⟩, hr⟩ := h
      obtain ⟨a, ha⟩ := ihl hl
      obtain ⟨b, hb⟩ := ihr hr
      simp only [IndexExpr.order, ha, hb, Option.bind_eq_bind, Option.bind_some]
      cases op with
      | add => exact ⟨_, rfl⟩
      | sub => exact ⟨_, rfl⟩
      | mul => exact ⟨_, rfl⟩
      | div => cases hdiv
      | mod => cases hdiv
  | paren expr ih => exact ih h

/-- A zero divisor is reported, and nothing else, and nothing traps, exactly when there is no
division, or every dividend is always zero and some divisor is. -/
theorem divisionSafe_iff (k : ℕ) (expr : IndexExpr) :
    DivisionSafe k expr ↔ expr.hasDivision = false ∨
      (∃ m, expr.order k = some m) ∧ expr.dividesByZero = true := by
  constructor
  · intro h
    obtain ⟨m, hm⟩ := exists_order_of_divisionSafe h
    have haligned := aligned_placed ⟨fun _ => 0, fun _ => none, 0⟩ k fun _ => false
    obtain ⟨v, st', hrun, hreports⟩ := h _ haligned initial
    obtain ⟨w, st'', hrun', hdivides⟩ := haligned.reports_iff hm initial
    rw [hrun] at hrun'
    cases hrun'
    rcases Bool.eq_false_or_eq_true expr.hasDivision with hdiv | hnone
    · exact .inr ⟨⟨m, hm⟩, hreports.mp (hdivides.mpr hdiv)⟩
    · exact .inl hnone
  · intro h env henv st
    have hsame : expr.hasDivision = true ↔ expr.dividesByZero = true := by
      refine ⟨fun hdiv => ?_, hasDivision_of_dividesByZero⟩
      rcases h with hnone | ⟨-, hzero⟩
      · rw [hdiv] at hnone
        cases hnone
      · exact hzero
    obtain ⟨m, hm⟩ : ∃ m, expr.order k = some m := by
      rcases h with hnone | ⟨horder, -⟩
      · exact exists_order_of_not_hasDivision k hnone
      · exact horder
    obtain ⟨v, st', hrun, hreports⟩ := henv.reports_iff hm st
    exact ⟨v, st', hrun, hreports.trans hsame⟩

/-- `4 / 0` is not reported, `3 / (1 / 2)` traps, and `(1 / 2) / 3` is reported. -/
theorem not_divisionSafe_quotient :
    ¬ DivisionSafe 4 (.binary .div (.const (.int 4)) (.const (.int 0))) ∧
      ¬ DivisionSafe 4
        (.binary .div (.const (.int 3)) (.binary .div (.const (.int 1)) (.const (.int 2)))) ∧
      ¬ DivisionSafe 4
        (.binary .div (.binary .div (.const (.int 1)) (.const (.int 2))) (.const (.int 3))) := by
  refine ⟨?_, ?_, ?_⟩
  · intro h
    obtain ⟨v, st', hrun, hreports⟩ := h inARow aligned_inARow initial
    have hquiet : indexExpr inARow initial (.binary .div (.const (.int 4)) (.const (.int 0))) =
        .ok (0, { initial with items := 2 }) := by
      rfl
    cases hquiet.symm.trans hrun
    exact absurd (hreports.mpr rfl) (by decide)
  · intro h
    obtain ⟨v, st', hrun, -⟩ := h inARow aligned_inARow initial
    have htrap : indexExpr inARow initial (.binary .div (.const (.int 3))
        (.binary .div (.const (.int 1)) (.const (.int 2)))) = .error .trap := by
      rfl
    cases htrap.symm.trans hrun
  · intro h
    obtain ⟨v, st', hrun, hreports⟩ := h inARow aligned_inARow initial
    have hloud : indexExpr inARow initial (.binary .div (.binary .div (.const (.int 1))
        (.const (.int 2))) (.const (.int 3))) = .ok (0, { initial with items := 3, errors := 1 }) := by
      rfl
    cases hloud.symm.trans hrun
    exact absurd (hreports.mp (by decide)) (by decide)

end SimpleVm.Parser
