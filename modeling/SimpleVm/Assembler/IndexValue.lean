import Mathlib.Algebra.Group.Int.Even
import Mathlib.Algebra.Ring.Parity
import SimpleVm.Assembler.IndexExpr

/-!
# What an index expression is worth

The rule for a constant hands on the item it built, so an index expression is
computed with the low words of addresses. Addresses are as the allocator
chooses them: distinct, not zero, and multiples of the alignment. A product
of enough of them is zero in 32 bits wherever they are; nothing else that an
expression computes is independent of them.
-/

namespace SimpleVm.Parser

/-! ## The numbers of the source -/

def IndexConstant.number : IndexConstant → ℤ
  | .int val => val.toInt
  | .uint val => val.toNat

/-- An exact value that an `int` can hold. -/
def inInt (z : ℤ) : Option ℤ := if -2 ^ 31 ≤ z ∧ z < 2 ^ 31 then some z else none

def IndexOp.exact (x y : ℤ) : IndexOp → Option ℤ
  | .add => some (x + y)
  | .sub => some (x - y)
  | .mul => some (x * y)
  | .div => if y = 0 then none else some (x.tdiv y)
  | .mod => if y = 0 then none else some (x.tmod y)

namespace IndexExpr

/-- The mathematical value, where no divisor is zero and every value on the way is in `int`. -/
def mathValue : IndexExpr → Option ℤ
  | .const c => inInt c.number
  | .binary op lhs rhs => do
      let x ← lhs.mathValue
      let y ← rhs.mathValue
      let z ← op.exact x y
      inInt z
  | .paren expr => expr.mathValue

end IndexExpr

theorem range_of_inInt {z z' : ℤ} (h : inInt z = some z') : -2 ^ 31 ≤ z' ∧ z' < 2 ^ 31 := by
  unfold inInt at h
  split at h
  · next hrange =>
      obtain rfl := Option.some.inj h
      exact hrange
  · cases h

theorem IndexExpr.range_of_mathValue {expr : IndexExpr} {z : ℤ} (h : expr.mathValue = some z) :
    -2 ^ 31 ≤ z ∧ z < 2 ^ 31 := by
  induction expr with
  | const c => exact range_of_inInt h
  | binary op lhs rhs =>
      simp only [mathValue, Option.bind_eq_bind, Option.bind_eq_some_iff] at h
      obtain ⟨x, -, y, -, z', -, hz⟩ := h
      exact range_of_inInt hz
  | paren expr ih => exact ih h

/-- What any allocator aligned to `2 ^ k` bytes promises. -/
structure Aligned (k : ℕ) (env : Env) : Prop where
  distinct : Function.Injective env.itemAddr
  nonzero : ∀ i, 0 < env.itemAddr i
  aligned : ∀ i, 2 ^ k ∣ env.itemAddr i

/-- Wherever the items are, the actions return the mathematical value if there is one. -/
def IndexValueRight (k : ℕ) (expr : IndexExpr) : Prop :=
  ∀ z, expr.mathValue = some z → ∀ env, Aligned k env → ∀ st,
    ∃ st', indexExpr env st expr = .ok (Int32.ofInt z, st')

/-! ## What is the same for all addresses -/

/-- A power of two that divides what the operation gives, whatever the operands are. Where
a dividend need not be zero the divisor may be. -/
def IndexOp.order (a b : ℕ) : IndexOp → Option ℕ
  | .add | .sub => some (min a b)
  | .mul => some (a + b)
  | .div | .mod => if 32 ≤ a then some a else none

namespace IndexExpr

def order (k : ℕ) : IndexExpr → Option ℕ
  | .const _ => some k
  | .binary op lhs rhs => do
      let a ← lhs.order k
      let b ← rhs.order k
      op.order a b
  | .paren expr => expr.order k

/-- Some division traps. -/
def faults (env : Env) (n : ℕ) (expr : IndexExpr) : Bool :=
  (expr.divisions env n).any fun p => !guarded p && traps p

end IndexExpr

theorem indexExpr_eq_ok_iff {env : Env} {st : State} {expr : IndexExpr} {v : Int32} :
    (∃ st', indexExpr env st expr = .ok (v, st')) ↔
      expr.faults env st.items = false ∧ expr.value env st.items = v := by
  rw [indexExpr_eq, outcome, ← IndexExpr.faults]
  cases expr.faults env st.items with
  | true => simp
  | false => simp

section Operations

theorem faults_binary (env : Env) (n : ℕ) (op : IndexOp) (lhs rhs : IndexExpr) :
    (IndexExpr.binary op lhs rhs).faults env n =
      (lhs.faults env n || rhs.faults env (n + lhs.constants) ||
        (op.isDivision && (!guarded (lhs.value env n, rhs.value env (n + lhs.constants)) &&
          traps (lhs.value env n, rhs.value env (n + lhs.constants))))) := by
  simp only [IndexExpr.faults, IndexExpr.divisions, List.any_append]
  cases op.isDivision with
  | true => simp
  | false => simp

theorem ofInt_eq_zero_iff {z : ℤ} : Int32.ofInt z = 0 ↔ (2 : ℤ) ^ 32 ∣ z := by
  rw [Int32.ofInt_eq_iff_bmod_eq_toInt, Int32.toInt_zero, ← Int.dvd_iff_bmod_eq_zero]
  rfl

theorem ofInt_ne_zero {a : ℕ} {c : ℤ} (ha : a < 32) (hc : Odd c) :
    Int32.ofInt (2 ^ a * c) ≠ 0 := by
  rw [Ne, ofInt_eq_zero_iff]
  intro hdvd
  have htwo : (2 : ℤ) ^ (a + 1) ∣ 2 ^ a * c := Int.dvd_trans (pow_dvd_pow 2 ha) hdvd
  rw [pow_succ, Int.mul_dvd_mul_iff_left (by positivity)] at htwo
  exact (Int.not_even_iff_odd.mpr hc) (even_iff_two_dvd.mpr htwo)

theorem apply_zero_left {op : IndexOp} (h : op.isDivision = true) (y : Int32) :
    op.apply 0 y = 0 := by
  cases op with
  | add => cases h
  | sub => cases h
  | mul => cases h
  | div => simp [IndexOp.apply]
  | mod => simp [IndexOp.apply]

theorem faults_binary_div {env : Env} {n : ℕ} {op : IndexOp} {lhs rhs : IndexExpr}
    (hl : lhs.faults env n = false) (hr : rhs.faults env (n + lhs.constants) = false)
    (hop : op.isDivision = true → lhs.value env n = 0) :
    (IndexExpr.binary op lhs rhs).faults env n = false := by
  rw [faults_binary, hl, hr]
  cases hdiv : op.isDivision with
  | false => rfl
  | true =>
      rw [hop hdiv]
      rfl

end Operations

/-- The value is `z` in 32 bits, and `2 ^ a` divides `z`. -/
def Multiple (a : ℕ) (v : Int32) : Prop := ∃ z : ℤ, (2 : ℤ) ^ a ∣ z ∧ v = Int32.ofInt z

theorem Multiple.eq_zero {a : ℕ} {v : Int32} (h : Multiple a v) (ha : 32 ≤ a) : v = 0 := by
  obtain ⟨z, hdvd, rfl⟩ := h
  exact ofInt_eq_zero_iff.mpr (Int.dvd_trans (pow_dvd_pow 2 ha) hdvd)

theorem multiple_zero (a : ℕ) : Multiple a 0 := ⟨0, Int.dvd_zero _, rfl⟩

theorem Multiple.apply {op : IndexOp} {a b m : ℕ} {x y : Int32} (hx : Multiple a x)
    (hy : Multiple b y) (hop : op.order a b = some m) : Multiple m (op.apply x y) := by
  have hmin : ∀ {c d : ℕ}, c ≤ d → (2 : ℤ) ^ c ∣ 2 ^ d := fun h => pow_dvd_pow 2 h
  have hdivision : op.isDivision = true → 32 ≤ a → Multiple m (op.apply x y) := by
    intro hdiv ha
    rw [hx.eq_zero ha, apply_zero_left hdiv]
    exact multiple_zero m
  obtain ⟨u, hu, rfl⟩ := id hx
  obtain ⟨w, hw, rfl⟩ := id hy
  cases op with
  | add =>
      obtain rfl := Option.some.inj hop
      refine ⟨u + w, Int.dvd_add ?_ ?_, (Int32.ofInt_add u w).symm⟩
      · exact Int.dvd_trans (hmin (Nat.min_le_left a b)) hu
      · exact Int.dvd_trans (hmin (Nat.min_le_right a b)) hw
  | sub =>
      obtain rfl := Option.some.inj hop
      refine ⟨u - w, Int.dvd_sub ?_ ?_, (Int32.ofInt_sub u w).symm⟩
      · exact Int.dvd_trans (hmin (Nat.min_le_left a b)) hu
      · exact Int.dvd_trans (hmin (Nat.min_le_right a b)) hw
  | mul =>
      obtain rfl := Option.some.inj hop
      refine ⟨u * w, ?_, (Int32.ofInt_mul u w).symm⟩
      rw [pow_add]
      exact Int.mul_dvd_mul hu hw
  | div =>
      obtain ⟨ha, -⟩ : 32 ≤ a ∧ a = m := by simpa [IndexOp.order] using hop
      exact hdivision rfl ha
  | mod =>
      obtain ⟨ha, -⟩ : 32 ≤ a ∧ a = m := by simpa [IndexOp.order] using hop
      exact hdivision rfl ha

theorem le_of_division_order {op : IndexOp} {a b m : ℕ} (hop : op.order a b = some m)
    (hdiv : op.isDivision = true) : 32 ≤ a := by
  cases op with
  | add => cases hdiv
  | sub => cases hdiv
  | mul => cases hdiv
  | div => exact (show 32 ≤ a ∧ a = m by simpa [IndexOp.order] using hop).1
  | mod => exact (show 32 ≤ a ∧ a = m by simpa [IndexOp.order] using hop).1

/-- An expression that has an order keeps it for all addresses, and never traps. -/
theorem Aligned.multiple {k : ℕ} {env : Env} (h : Aligned k env) {expr : IndexExpr} {n m : ℕ}
    (hm : expr.order k = some m) :
    expr.faults env n = false ∧ Multiple m (expr.value env n) := by
  induction expr generalizing n m with
  | const c =>
      obtain rfl := Option.some.inj hm
      refine ⟨rfl, (env.itemAddr n : ℤ), by exact_mod_cast h.aligned n, ?_⟩
      exact Int32.ofInt_eq_ofNat.symm
  | binary op lhs rhs ihl ihr =>
      simp only [IndexExpr.order, Option.bind_eq_bind, Option.bind_eq_some_iff] at hm
      obtain ⟨a, ha, b, hb, hop⟩ := hm
      obtain ⟨hfl, hvl⟩ := ihl (n := n) ha
      obtain ⟨hfr, hvr⟩ := ihr (n := n + lhs.constants) hb
      refine ⟨faults_binary_div hfl hfr fun hdiv => ?_, hvl.apply hvr hop⟩
      exact hvl.eq_zero (le_of_division_order hop hdiv)
  | paren expr ih => exact ih hm

/-! ## Addresses that show a difference -/

/-- Items far apart, some of them one step of the alignment further on. -/
def placed (memory : DataBuffer.Memory) (k : ℕ) (marked : ℕ → Bool) : Env where
  memory := memory
  itemAddr i := (i + 1) * 2 ^ (k + 32) + if marked i then 2 ^ k else 0

section Placed

variable (memory : DataBuffer.Memory) (k : ℕ)

theorem itemAddr_placed (marked : ℕ → Bool) (i : ℕ) :
    (placed memory k marked).itemAddr i =
      2 ^ (k + 32) * (i + 1) + if marked i then 2 ^ k else 0 := by
  rw [Nat.mul_comm]
  rfl

theorem mark_lt (b : Bool) : (if b then 2 ^ k else 0) < 2 ^ (k + 32) := by
  have hlt : 2 ^ k < 2 ^ (k + 32) := Nat.pow_lt_pow_right (by omega) (by omega)
  cases b with
  | true => exact hlt
  | false => exact Nat.pow_pos (by omega)

theorem aligned_placed (marked : ℕ → Bool) : Aligned k (placed memory k marked) where
  distinct := by
    intro i j heq
    have hdiv : ∀ i, (placed memory k marked).itemAddr i / 2 ^ (k + 32) = i + 1 := by
      intro i
      have hpos : 0 < 2 ^ (k + 32) := Nat.pow_pos (by omega)
      rw [itemAddr_placed, Nat.mul_add_div hpos, Nat.div_eq_of_lt (mark_lt k (marked i)),
        Nat.add_zero]
    have hsame := congrArg (· / 2 ^ (k + 32)) heq
    simp only [hdiv] at hsame
    omega
  nonzero := by
    intro i
    rw [itemAddr_placed]
    exact Nat.add_pos_left (Nat.mul_pos (Nat.pow_pos (by omega)) (by omega)) _
  aligned := by
    intro i
    rw [itemAddr_placed]
    refine Nat.dvd_add (Nat.dvd_mul_right_of_dvd (pow_dvd_pow 2 (by omega)) _) ?_
    split
    · exact Nat.dvd_refl _
    · exact Nat.dvd_zero _

theorem ofNat_placed (marked : ℕ → Bool) (i : ℕ) :
    Int32.ofNat ((placed memory k marked).itemAddr i) =
      if marked i then Int32.ofInt (2 ^ k) else 0 := by
  have hbase : Int32.ofInt ((2 ^ (k + 32) * (i + 1) : ℕ) : ℤ) = 0 := by
    rw [ofInt_eq_zero_iff]
    have hdvd : 2 ^ 32 ∣ 2 ^ (k + 32) * (i + 1) :=
      Nat.dvd_mul_right_of_dvd (pow_dvd_pow 2 (by omega)) _
    exact_mod_cast hdvd
  rw [itemAddr_placed, Int32.ofNat_add, ← Int32.ofInt_eq_ofNat, hbase, Int32.zero_add]
  cases marked i with
  | true =>
      rw [← Int32.ofInt_eq_ofNat]
      simp
  | false => rfl

variable {memory k}

/-- Only the marks in the range of the expression count. -/
theorem placed_congr {marked marked' : ℕ → Bool} {expr : IndexExpr} {n : ℕ}
    (h : ∀ i, n ≤ i → i < n + expr.constants → marked i = marked' i) :
    expr.value (placed memory k marked) n = expr.value (placed memory k marked') n ∧
      expr.divisions (placed memory k marked) n = expr.divisions (placed memory k marked') n := by
  induction expr generalizing n with
  | const c =>
      refine ⟨?_, rfl⟩
      have hmark := h n (Nat.le_refl n) (Nat.lt_succ_self n)
      simp only [IndexExpr.value, ofNat_placed, hmark]
  | binary op lhs rhs ihl ihr =>
      obtain ⟨hvl, hdl⟩ := ihl (n := n) fun i hi hlt =>
        h i hi (by rw [IndexExpr.constants]; omega)
      obtain ⟨hvr, hdr⟩ := ihr (n := n + lhs.constants) fun i hi hlt =>
        h i (by omega) (by rw [IndexExpr.constants]; omega)
      simp only [IndexExpr.value, IndexExpr.divisions, hvl, hdl, hvr, hdr, and_self]
  | paren expr ih => exact ih h

theorem faults_congr {marked marked' : ℕ → Bool} {expr : IndexExpr} {n : ℕ}
    (h : ∀ i, n ≤ i → i < n + expr.constants → marked i = marked' i) :
    expr.faults (placed memory k marked) n = expr.faults (placed memory k marked') n := by
  rw [IndexExpr.faults, IndexExpr.faults, (placed_congr h).2]

variable (memory k) in
theorem unmarked (expr : IndexExpr) (n : ℕ) :
    expr.faults (placed memory k fun _ => false) n = false ∧
      expr.value (placed memory k fun _ => false) n = 0 := by
  induction expr generalizing n with
  | const c => exact ⟨rfl, ofNat_placed memory k (fun _ => false) n⟩
  | binary op lhs rhs ihl ihr =>
      obtain ⟨hfl, hvl⟩ := ihl n
      obtain ⟨hfr, hvr⟩ := ihr (n + lhs.constants)
      refine ⟨faults_binary_div hfl hfr fun _ => hvl, ?_⟩
      rw [IndexExpr.value, hvl, hvr]
      cases op <;> rfl
  | paren expr ih => exact ih n

end Placed

/-- Marks of the left operand in front of those of the right one. -/
def joined (n : ℕ) (left right : ℕ → Bool) (i : ℕ) : Bool := if i < n then left i else right i

/-- Some marks give the order that the expression has, or a trap if it has none. -/
def Attains (memory : DataBuffer.Memory) (k n : ℕ) (expr : IndexExpr) : Option ℕ → Prop
  | some a => ∃ marked, expr.faults (placed memory k marked) n = false ∧
      ∃ c : ℤ, Odd c ∧ expr.value (placed memory k marked) n = Int32.ofInt (2 ^ a * c)
  | none => ∃ marked, expr.faults (placed memory k marked) n = true

section Attaining

section Joined

variable (memory : DataBuffer.Memory) (k n : ℕ) (lhs rhs : IndexExpr)

theorem joined_left (left right : ℕ → Bool) :
    lhs.value (placed memory k (joined (n + lhs.constants) left right)) n =
        lhs.value (placed memory k left) n ∧
      lhs.faults (placed memory k (joined (n + lhs.constants) left right)) n =
        lhs.faults (placed memory k left) n := by
  have hmarks : ∀ i, n ≤ i → i < n + lhs.constants →
      joined (n + lhs.constants) left right i = left i := fun i _ hlt => if_pos hlt
  exact ⟨(placed_congr hmarks).1, faults_congr hmarks⟩

theorem joined_right (left right : ℕ → Bool) :
    rhs.value (placed memory k (joined (n + lhs.constants) left right)) (n + lhs.constants) =
        rhs.value (placed memory k right) (n + lhs.constants) ∧
      rhs.faults (placed memory k (joined (n + lhs.constants) left right)) (n + lhs.constants) =
        rhs.faults (placed memory k right) (n + lhs.constants) := by
  have hmarks : ∀ i, n + lhs.constants ≤ i → i < n + lhs.constants + rhs.constants →
      joined (n + lhs.constants) left right i = right i :=
    fun i hle _ => if_neg (Nat.not_lt.mpr hle)
  exact ⟨(placed_congr hmarks).1, faults_congr hmarks⟩

end Joined

variable {memory : DataBuffer.Memory} {k n : ℕ} {op : IndexOp} {lhs rhs : IndexExpr}

/-- The operands do not share items, so each can be given its own marks. -/
theorem exists_marks (op : IndexOp) {left right : ℕ → Bool} {x y : Int32}
    (hfl : lhs.faults (placed memory k left) n = false)
    (hvl : lhs.value (placed memory k left) n = x)
    (hfr : rhs.faults (placed memory k right) (n + lhs.constants) = false)
    (hvr : rhs.value (placed memory k right) (n + lhs.constants) = y) :
    ∃ marked, (IndexExpr.binary op lhs rhs).faults (placed memory k marked) n =
        (op.isDivision && (!guarded (x, y) && traps (x, y))) ∧
      (IndexExpr.binary op lhs rhs).value (placed memory k marked) n = op.apply x y := by
  obtain ⟨hvl', hfl'⟩ := joined_left memory k n lhs left right
  obtain ⟨hvr', hfr'⟩ := joined_right memory k n lhs rhs left right
  refine ⟨joined (n + lhs.constants) left right, ?_, ?_⟩
  · rw [faults_binary, hfl', hfr', hvl', hvr', hfl, hfr, hvl, hvr, Bool.false_or, Bool.false_or]
  · rw [IndexExpr.value, hvl', hvr', hvl, hvr]

theorem Attains.binary {a b : ℕ} (hl : Attains memory k n lhs (some a))
    (hr : Attains memory k (n + lhs.constants) rhs (some b)) :
    Attains memory k n (.binary op lhs rhs) (op.order a b) := by
  obtain ⟨left, hfl, c, hc, hvl⟩ := hl
  obtain ⟨right, hfr, d, hd, hvr⟩ := hr
  obtain ⟨hfl₀, hvl₀⟩ := unmarked memory k lhs n
  obtain ⟨hfr₀, hvr₀⟩ := unmarked memory k rhs (n + lhs.constants)
  have hdivision : op.isDivision = true → 32 ≤ a →
      Attains memory k n (.binary op lhs rhs) (some a) := by
    intro hdiv ha
    have hzero : lhs.value (placed memory k left) n = 0 := by
      rw [hvl, ofInt_eq_zero_iff]
      exact Int.dvd_mul_of_dvd_left (pow_dvd_pow 2 ha)
    obtain ⟨marked, hf, hv⟩ := exists_marks op hfl hzero hfr₀ hvr₀
    refine ⟨marked, by rw [hf]; simp [guarded], c, hc, ?_⟩
    rw [hv, apply_zero_left hdiv, ← hzero, hvl]
  have htrap : op.isDivision = true → a < 32 →
      Attains memory k n (.binary op lhs rhs) none := by
    intro hdiv ha
    obtain ⟨marked, hf, -⟩ := exists_marks op hfl hvl hfr₀ hvr₀
    have hne : ¬ Int32.ofInt (2 ^ a * c) = 0 := ofInt_ne_zero ha hc
    refine ⟨marked, ?_⟩
    simp only [hf, hdiv, guarded, traps, hne, decide_false, Bool.not_false, true_or, decide_true,
      Bool.and_self]
  cases op with
  | add =>
      obtain hlt | hle := Nat.lt_or_ge b a
      · obtain ⟨marked, hf, hv⟩ := exists_marks .add hfl₀ hvl₀ hfr hvr
        refine ⟨marked, hf, d, hd, hv.trans ?_⟩
        rw [Nat.min_eq_right (Nat.le_of_lt hlt)]
        exact Int32.zero_add _
      · obtain ⟨marked, hf, hv⟩ := exists_marks .add hfl hvl hfr₀ hvr₀
        refine ⟨marked, hf, c, hc, hv.trans ?_⟩
        rw [Nat.min_eq_left hle]
        exact Int32.add_zero _
  | sub =>
      obtain hlt | hle := Nat.lt_or_ge b a
      · obtain ⟨marked, hf, hv⟩ := exists_marks .sub hfl₀ hvl₀ hfr hvr
        refine ⟨marked, hf, -d, hd.neg, hv.trans ?_⟩
        rw [Nat.min_eq_right (Nat.le_of_lt hlt), Int.mul_neg, Int32.ofInt_neg]
        exact Int32.zero_sub _
      · obtain ⟨marked, hf, hv⟩ := exists_marks .sub hfl hvl hfr₀ hvr₀
        refine ⟨marked, hf, c, hc, hv.trans ?_⟩
        rw [Nat.min_eq_left hle]
        exact Int32.sub_zero _
  | mul =>
      obtain ⟨marked, hf, hv⟩ := exists_marks .mul hfl hvl hfr hvr
      refine ⟨marked, hf, c * d, hc.mul hd, hv.trans ?_⟩
      rw [IndexOp.apply, ← Int32.ofInt_mul, pow_add]
      congr 1
      ring
  | div =>
      by_cases ha : 32 ≤ a
      · rw [IndexOp.order, if_pos ha]
        exact hdivision rfl ha
      · rw [IndexOp.order, if_neg ha]
        exact htrap rfl (Nat.not_le.mp ha)
  | mod =>
      by_cases ha : 32 ≤ a
      · rw [IndexOp.order, if_pos ha]
        exact hdivision rfl ha
      · rw [IndexOp.order, if_neg ha]
        exact htrap rfl (Nat.not_le.mp ha)

theorem Attains.binary_left (hl : Attains memory k n lhs none) :
    Attains memory k n (.binary op lhs rhs) none := by
  obtain ⟨left, hf⟩ := hl
  refine ⟨joined (n + lhs.constants) left fun _ => false, ?_⟩
  rw [faults_binary, (joined_left memory k n lhs left _).2, hf, Bool.true_or, Bool.true_or]

theorem Attains.binary_right (hr : Attains memory k (n + lhs.constants) rhs none) :
    Attains memory k n (.binary op lhs rhs) none := by
  obtain ⟨right, hf⟩ := hr
  refine ⟨joined (n + lhs.constants) (fun _ => false) right, ?_⟩
  rw [faults_binary, (joined_right memory k n lhs rhs _ right).2, hf, Bool.or_true, Bool.true_or]

theorem attains_order (memory : DataBuffer.Memory) (k n : ℕ) (expr : IndexExpr) :
    Attains memory k n expr (expr.order k) := by
  induction expr generalizing n with
  | const c =>
      refine ⟨fun _ => true, rfl, 1, odd_one, ?_⟩
      rw [Int.mul_one]
      exact ofNat_placed memory k (fun _ => true) n
  | binary op lhs rhs ihl ihr =>
      have hl := ihl n
      have hr := ihr (n + lhs.constants)
      rw [IndexExpr.order]
      cases ha : lhs.order k with
      | none => exact Attains.binary_left (ha ▸ hl)
      | some a =>
          cases hb : rhs.order k with
          | none => exact Attains.binary_right (hb ▸ hr)
          | some b => exact Attains.binary (ha ▸ hl) (hb ▸ hr)
  | paren expr ih => exact ih n

end Attaining

/-- The only expressions computed rightly are those worth 0 whose product of
addresses is always 0 in 32 bits. -/
theorem indexValueRight_iff (k : ℕ) (expr : IndexExpr) :
    IndexValueRight k expr ↔
      ∀ z, expr.mathValue = some z → z = 0 ∧ ∃ m, expr.order k = some m ∧ 32 ≤ m := by
  constructor
  · intro h z hz
    obtain ⟨hlow, hhigh⟩ := IndexExpr.range_of_mathValue hz
    have hright : ∀ marked, expr.faults (placed ⟨fun _ => 0, fun _ => none, 0⟩ k marked) 0 = false ∧
        expr.value (placed ⟨fun _ => 0, fun _ => none, 0⟩ k marked) 0 = Int32.ofInt z :=
      fun marked => indexExpr_eq_ok_iff.mp (h z hz _ (aligned_placed _ k marked) initial)
    have hzero : Int32.ofInt z = 0 := (hright fun _ => false).2.symm.trans (unmarked _ k expr 0).2
    have hz₀ : z = 0 := by
      have hint := congrArg Int32.toInt hzero
      rwa [Int32.toInt_ofInt_of_le hlow hhigh] at hint
    have hattains := attains_order ⟨fun _ => 0, fun _ => none, 0⟩ k 0 expr
    cases hm : expr.order k with
    | none =>
        rw [hm] at hattains
        obtain ⟨marked, hfaults⟩ := hattains
        rw [(hright marked).1] at hfaults
        cases hfaults
    | some m =>
        rw [hm] at hattains
        obtain ⟨marked, -, c, hc, hv⟩ := hattains
        refine ⟨hz₀, m, rfl, ?_⟩
        by_contra hsmall
        apply ofInt_ne_zero (Nat.not_le.mp hsmall) hc
        rw [← hv, (hright marked).2, hzero]
  · intro h z hz env henv st
    obtain ⟨rfl, m, hm, hlarge⟩ := h z hz
    obtain ⟨hfaults, hmultiple⟩ := henv.multiple (n := st.items) hm
    exact indexExpr_eq_ok_iff.mpr ⟨hfaults, hmultiple.eq_zero hlarge⟩

/-- Items of sixteen bytes, one behind the other. -/
def inARow : Env := ⟨⟨fun _ => 0, fun _ => none, 0⟩, fun i => 4096 + 16 * i⟩

theorem aligned_inARow : Aligned 4 inARow where
  distinct := by
    intro i j heq
    simp only [inARow] at heq
    omega
  nonzero _ := Nat.add_pos_left (by omega) _
  aligned i := Nat.dvd_add ⟨256, rfl⟩ ⟨i, rfl⟩

/-- The index `5` is the address of its item. -/
theorem not_indexValueRight_literal : ¬ IndexValueRight 4 (.const (.int 5)) := by
  intro h
  obtain ⟨st', hrun⟩ := h 5 rfl inARow aligned_inARow initial
  have hvalue : (4096 : Int32) = Int32.ofInt 5 := congrArg Prod.fst (Except.ok.inj hrun)
  exact absurd hvalue (by decide)

end SimpleVm.Parser
