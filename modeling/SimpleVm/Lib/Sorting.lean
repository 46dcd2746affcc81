import Mathlib.Data.Int.Notation
import Mathlib.Data.List.Induction
import Mathlib.Data.Set.Defs
import Mathlib.Order.Basic

/-!
# Bubble sort and binary search with a comparator

The comparator says with the sign of a number how two values compare, as it is
usual in C. On values where this is a total preorder bubble sort is a stable
sort, and binary search finds a value in what is sorted.
-/

universe u

variable {α : Type u}

/-- The sign of the comparator is a total preorder on `D`. -/
structure TotalPreorderOn (D : Set α) (comp : α → α → ℤ) : Prop where
  swap : ∀ x ∈ D, ∀ y ∈ D, 0 < comp x y ↔ comp y x < 0
  trans : ∀ x ∈ D, ∀ y ∈ D, ∀ z ∈ D, comp x y ≤ 0 → comp y z ≤ 0 → comp x z ≤ 0

namespace TotalPreorderOn

variable {D D' : Set α} {comp : α → α → ℤ}

theorem mono (h : TotalPreorderOn D comp) (hD : ∀ x ∈ D', x ∈ D) : TotalPreorderOn D' comp :=
  ⟨fun x hx y hy => h.swap x (hD x hx) y (hD y hy),
    fun x hx y hy z hz => h.trans x (hD x hx) y (hD y hy) z (hD z hz)⟩

theorem eq_zero_comm (h : TotalPreorderOn D comp) {x y : α} (hx : x ∈ D) (hy : y ∈ D)
    (hzero : comp x y = 0) : comp y x = 0 := by
  have hxy := h.swap x hx y hy
  have hyx := h.swap y hy x hx
  omega

theorem le_of_lt (h : TotalPreorderOn D comp) {x y : α} (hx : x ∈ D) (hy : y ∈ D)
    (hlt : 0 < comp x y) : comp y x ≤ 0 := by
  have hneg := (h.swap x hx y hy).mp hlt
  omega

/-- What is above the key is above it all the way up. -/
theorem neg_of_neg (h : TotalPreorderOn D comp) {key x y : α} (hkey : key ∈ D) (hx : x ∈ D)
    (hy : y ∈ D) (hneg : comp key x < 0) (hle : comp x y ≤ 0) : comp key y < 0 := by
  have hpos : 0 < comp x key := (h.swap x hx key hkey).mpr hneg
  by_contra hnot
  have hback : comp y key ≤ 0 := by
    have hswap := h.swap y hy key hkey
    omega
  have htrans := h.trans x hx y hy key hkey hle hback
  omega

theorem pos_of_pos (h : TotalPreorderOn D comp) {key x y : α} (hkey : key ∈ D) (hx : x ∈ D)
    (hy : y ∈ D) (hpos : 0 < comp key y) (hle : comp x y ≤ 0) : 0 < comp key x := by
  by_contra hnot
  have htrans := h.trans key hkey x hx y hy (Int.not_lt.mp hnot) hle
  omega

end TotalPreorderOn

namespace Sorting

/-! ## Bubble sort -/

def compareSwap (comp : α → α → ℤ) (l : List α) (i : ℕ) : List α :=
  match l[i]?, l[i + 1]? with
  | some x, some y => if 0 < comp x y then (l.set i y).set (i + 1) x else l
  | _, _ => l

def bubblePass (comp : α → α → ℤ) (l : List α) (step : ℕ) : List α :=
  (List.range (l.length - step - 1)).foldl (compareSwap comp) l

def bubbleSort (comp : α → α → ℤ) (l : List α) : List α :=
  (List.range (l.length - 1)).foldl (bubblePass comp) l

variable {D : Set α} {comp : α → α → ℤ} {l l' l'' : List α}

def Sorted (comp : α → α → ℤ) (l : List α) : Prop := l.Pairwise fun x y => comp x y ≤ 0

/-- The same values, and those that compare equal are still in the order they were in. -/
structure Reordered (D : Set α) (comp : α → α → ℤ) (l l' : List α) : Prop where
  perm : l'.Perm l
  stable : ∀ z ∈ D, l'.filter (fun x => comp z x = 0) = l.filter fun x => comp z x = 0

theorem Reordered.refl (D : Set α) (comp : α → α → ℤ) (l : List α) : Reordered D comp l l :=
  ⟨.refl l, fun _ _ => rfl⟩

theorem Reordered.trans (h : Reordered D comp l l') (h' : Reordered D comp l' l'') :
    Reordered D comp l l'' :=
  ⟨h'.perm.trans h.perm, fun z hz => (h'.stable z hz).trans (h.stable z hz)⟩

theorem Reordered.mem (h : Reordered D comp l l') (hl : ∀ x ∈ l, x ∈ D) : ∀ x ∈ l', x ∈ D :=
  fun x hx => hl x (h.perm.mem_iff.mp hx)

theorem compareSwap_append (comp : α → α → ℤ) (pre : List α) (x y : α) (post : List α) :
    compareSwap comp (pre ++ x :: y :: post) pre.length =
      if 0 < comp x y then pre ++ y :: x :: post else pre ++ x :: y :: post := by
  have hx : (pre ++ x :: y :: post)[pre.length]? = some x := by simp
  have hy : (pre ++ x :: y :: post)[pre.length + 1]? = some y := by
    rw [List.getElem?_append_right (Nat.le_add_right _ 1), Nat.add_sub_cancel_left]
    rfl
  have hset : ((pre ++ x :: y :: post).set pre.length y).set (pre.length + 1) x =
      pre ++ y :: x :: post := by
    rw [List.set_append_right _ _ (Nat.le_refl _),
      List.set_append_right _ _ (Nat.le_add_right _ 1), Nat.sub_self, Nat.add_sub_cancel_left]
    rfl
  simp only [compareSwap, hx, hy, hset]

theorem exists_split {i : ℕ} (hi : i + 1 < l.length) :
    ∃ pre x y post, l = pre ++ x :: y :: post ∧ pre.length = i := by
  refine ⟨l.take i, l[i], l[i + 1], l.drop (i + 1 + 1), ?_, ?_⟩
  · rw [← List.drop_eq_getElem_cons hi, ← List.drop_eq_getElem_cons (Nat.lt_of_succ_lt hi),
      List.take_append_drop]
  · exact List.length_take_of_le (Nat.le_of_lt (Nat.lt_of_succ_lt hi))

theorem compareSwap_outside {i : ℕ} (hi : ¬ i + 1 < l.length) : compareSwap comp l i = l := by
  have hnone : l[i + 1]? = none := List.getElem?_eq_none (Nat.not_lt.mp hi)
  rw [compareSwap, hnone]
  cases l[i]? <;> rfl

theorem length_compareSwap (comp : α → α → ℤ) (l : List α) (i : ℕ) :
    (compareSwap comp l i).length = l.length := by
  unfold compareSwap
  split
  · split
    · rw [List.length_set, List.length_set]
    · rfl
  · rfl

/-- Values that compare equal are not swapped. -/
theorem reordered_swap (h : TotalPreorderOn D comp) {pre post : List α} {x y : α} (hx : x ∈ D)
    (hy : y ∈ D) (hlt : 0 < comp x y) :
    Reordered D comp (pre ++ x :: y :: post) (pre ++ y :: x :: post) := by
  refine ⟨(List.Perm.swap x y post).append_left pre, ?_⟩
  intro z hz
  have hnot : ¬ (comp z x = 0 ∧ comp z y = 0) := by
    rintro ⟨hzx, hzy⟩
    have hxz := h.eq_zero_comm hz hx hzx
    have hle := h.trans x hx z hz y hy (Int.le_of_eq hxz) (Int.le_of_eq hzy)
    omega
  rw [List.filter_append, List.filter_append]
  congr 1
  by_cases hzx : comp z x = 0
  · have hzy : comp z y ≠ 0 := fun hzero => hnot ⟨hzx, hzero⟩
    simp [hzx, hzy]
  · by_cases hzy : comp z y = 0
    · simp [hzx, hzy]
    · simp [hzx, hzy]

theorem reordered_compareSwap (h : TotalPreorderOn D comp) (hl : ∀ x ∈ l, x ∈ D) (i : ℕ) :
    Reordered D comp l (compareSwap comp l i) := by
  by_cases hi : i + 1 < l.length
  · obtain ⟨pre, x, y, post, rfl, rfl⟩ := exists_split hi
    rw [compareSwap_append]
    split
    · next hlt =>
        exact reordered_swap h (hl x (by simp)) (hl y (by simp)) hlt
    · exact .refl D comp _
  · rw [compareSwap_outside hi]
    exact .refl D comp l

/-- What reorders the list once does so in a loop. -/
theorem reordered_foldl {f : List α → ℕ → List α}
    (hf : ∀ l i, (∀ x ∈ l, x ∈ D) → Reordered D comp l (f l i)) (hl : ∀ x ∈ l, x ∈ D)
    (is : List ℕ) : Reordered D comp l (is.foldl f l) := by
  induction is generalizing l with
  | nil => exact .refl D comp l
  | cons i is ih =>
      have hstep := hf l i hl
      exact hstep.trans (ih (hstep.mem hl))

theorem reordered_bubblePass (h : TotalPreorderOn D comp) (hl : ∀ x ∈ l, x ∈ D) (step : ℕ) :
    Reordered D comp l (bubblePass comp l step) :=
  reordered_foldl (fun _ i hl' => reordered_compareSwap h hl' i) hl _

theorem reordered_bubbleSort (h : TotalPreorderOn D comp) (hl : ∀ x ∈ l, x ∈ D) :
    Reordered D comp l (bubbleSort comp l) :=
  reordered_foldl (fun _ step hl' => reordered_bubblePass h hl' step) hl _

/-- After `k` rounds the largest of the first `k + 1` values is the last of them. -/
theorem exists_rounds (h : TotalPreorderOn D comp) (hl : ∀ x ∈ l, x ∈ D) {k : ℕ}
    (hk : k < l.length) :
    ∃ pre m, (List.range k).foldl (compareSwap comp) l = pre ++ m :: l.drop (k + 1) ∧
      pre.length = k ∧ (pre ++ [m]).Perm (l.take (k + 1)) ∧ ∀ x ∈ pre, comp x m ≤ 0 := by
  induction k with
  | zero =>
      refine ⟨[], l[0], ?_, rfl, ?_, nofun⟩
      · rw [List.nil_append, ← List.drop_eq_getElem_cons hk]
        rfl
      · rw [List.take_one, List.head?_eq_getElem?, List.getElem?_eq_getElem hk]
        exact .refl _
  | succ k ih =>
      obtain ⟨pre, m, hrounds, hpre, hperm, hmax⟩ := ih (Nat.lt_of_succ_lt hk)
      have htake : l.take (k + 1 + 1) = l.take (k + 1) ++ [l[k + 1]] :=
        List.take_succ_eq_append_getElem hk
      have hmem : ∀ x ∈ pre ++ [m], x ∈ D := fun x hx =>
        hl x (List.mem_of_mem_take (hperm.mem_iff.mp hx))
      have hm : m ∈ D := hmem m (List.mem_append_right _ (List.mem_singleton_self m))
      have hy : l[k + 1] ∈ D := hl _ (List.getElem_mem hk)
      have hround := compareSwap_append comp pre m l[k + 1] (l.drop (k + 1 + 1))
      rw [hpre] at hround
      rw [List.range_succ, List.foldl_append, hrounds, List.drop_eq_getElem_cons hk,
        List.foldl_cons, List.foldl_nil, hround]
      by_cases hlt : 0 < comp m l[k + 1]
      · rw [if_pos hlt]
        refine ⟨pre ++ [l[k + 1]], m, ?_, ?_, ?_, ?_⟩
        · rw [List.append_assoc, List.singleton_append]
        · rw [List.length_append, List.length_singleton, hpre]
        · rw [htake]
          have hswap : (pre ++ [l[k + 1]] ++ [m]).Perm (pre ++ [m] ++ [l[k + 1]]) := by
            rw [List.append_assoc, List.append_assoc]
            exact (List.Perm.swap m l[k + 1] []).append_left pre
          exact hswap.trans (hperm.append_right _)
        · intro x hx
          rcases List.mem_append.mp hx with hx | hx
          · exact hmax x hx
          · rw [List.mem_singleton.mp hx]
            exact h.le_of_lt hm hy hlt
      · rw [if_neg hlt]
        refine ⟨pre ++ [m], l[k + 1], ?_, ?_, ?_, ?_⟩
        · rw [List.append_assoc, List.singleton_append]
        · rw [List.length_append, List.length_singleton, hpre]
        · rw [htake]
          exact hperm.append_right _
        · intro x hx
          have hle := Int.not_lt.mp hlt
          rcases List.mem_append.mp hx with hx | hx
          · exact h.trans x (hmem x (List.mem_append_left _ hx)) m hm _ hy (hmax x hx) hle
          · rw [List.mem_singleton.mp hx]
            exact hle

/-- After `step` passes the last `step` values are the largest ones in order. -/
theorem exists_passes (h : TotalPreorderOn D comp) (hl : ∀ x ∈ l, x ∈ D) {step : ℕ}
    (hstep : step < l.length) :
    ∃ front back, (List.range step).foldl (bubblePass comp) l = front ++ back ∧
      back.length = step ∧ (front ++ back).Perm l ∧ Sorted comp back ∧
      ∀ x ∈ front, ∀ y ∈ back, comp x y ≤ 0 := by
  induction step with
  | zero => exact ⟨l, [], (List.append_nil l).symm, rfl, by rw [List.append_nil], .nil, nofun⟩
  | succ step ih =>
      obtain ⟨front, back, hpasses, hback, hperm, hsorted, hle⟩ := ih (Nat.lt_of_succ_lt hstep)
      have hlength : front.length + step = l.length := by
        have hlen := hperm.length_eq
        rw [List.length_append] at hlen
        omega
      have hmem : ∀ x ∈ front ++ back, x ∈ D := fun x hx => hl x (hperm.mem_iff.mp hx)
      obtain ⟨pre, m, hrounds, hpre, hfront, hmax⟩ :=
        exists_rounds h hmem (k := front.length - 1) (by rw [List.length_append]; omega)
      have hcount : front.length - 1 + 1 = front.length := by omega
      rw [hcount, List.drop_left] at hrounds
      rw [hcount, List.take_left] at hfront
      have hpass : bubblePass comp (front ++ back) step = pre ++ m :: back := by
        rw [← hrounds, bubblePass, List.length_append, hback, Nat.add_sub_cancel]
      refine ⟨pre, m :: back, ?_, ?_, ?_, ?_, ?_⟩
      · rw [List.range_succ, List.foldl_append, hpasses]
        exact hpass
      · rw [List.length_cons, hback]
      · have hpair : (pre ++ m :: back).Perm (front ++ back) := by
          rw [List.append_cons]
          exact hfront.append_right back
        exact hpair.trans hperm
      · refine List.pairwise_cons.mpr ⟨?_, hsorted⟩
        intro y hy
        exact hle m (hfront.mem_iff.mp (by simp)) y hy
      · intro x hx y hy
        rcases List.mem_cons.mp hy with rfl | hy
        · exact hmax x hx
        · exact hle x (hfront.mem_iff.mp (List.mem_append_left _ hx)) y hy

theorem sorted_bubbleSort (h : TotalPreorderOn D comp) (hl : ∀ x ∈ l, x ∈ D) :
    Sorted comp (bubbleSort comp l) := by
  rcases Nat.eq_zero_or_pos l.length with hzero | hpos
  · rw [List.length_eq_zero_iff.mp hzero]
    exact .nil
  · have hlast : l.length - 1 < l.length := Nat.sub_lt hpos Nat.one_pos
    obtain ⟨front, back, hpasses, hback, hperm, hsorted, hle⟩ := exists_passes h hl hlast
    have hone : front.length = 1 := by
      have hlen := hperm.length_eq
      rw [List.length_append] at hlen
      omega
    obtain ⟨x, rfl⟩ := List.length_eq_one_iff.mp hone
    rw [bubbleSort, hpasses]
    exact List.pairwise_cons.mpr ⟨fun y hy => hle x (List.mem_singleton_self x) y hy, hsorted⟩

/-! ## Binary search -/

/-- `val` compares the key with the value at an index; with no fuel left there is no answer. -/
def bisect (val : ℤ → ℤ) : ℕ → ℤ → ℤ → Option ℤ
  | 0, _, _ => none
  | fuel + 1, low, high =>
      if low ≤ high then
        let mid := low + (high - low) / 2
        if val mid = 0 then some mid
        else if 0 < val mid then bisect val fuel (mid + 1) high
        else bisect val fuel low (mid - 1)
      else some (-1)

/-- The index of a value that compares equal, or -1 when there is none. -/
def IsFound (val : ℤ → ℤ) (low high r : ℤ) : Prop :=
  low ≤ r ∧ r ≤ high ∧ val r = 0 ∨ r = -1 ∧ ∀ i, low ≤ i → i ≤ high → val i ≠ 0

/-- The key is above the values in front of some place and below those behind it. -/
structure Directs (val : ℤ → ℤ) (low high : ℤ) : Prop where
  down : ∀ i j, low ≤ i → i ≤ j → j ≤ high → 0 < val j → 0 < val i
  up : ∀ i j, low ≤ i → i ≤ j → j ≤ high → val i < 0 → val j < 0

variable {val : ℤ → ℤ} {low high r mid : ℤ}

theorem Directs.shrink (h : Directs val low high) (low' high' : ℤ) (hlow : low ≤ low')
    (hhigh : high' ≤ high) : Directs val low' high' :=
  ⟨fun i j hi hij hj => h.down i j (by omega) hij (by omega),
    fun i j hi hij hj => h.up i j (by omega) hij (by omega)⟩

theorem IsFound.of_right (h : Directs val low high) (hmid : mid ≤ high) (hpos : 0 < val mid)
    (hlow : low ≤ mid) (hfound : IsFound val (mid + 1) high r) : IsFound val low high r := by
  rcases hfound with ⟨hge, hle, hzero⟩ | ⟨hr, hnone⟩
  · exact .inl ⟨by omega, hle, hzero⟩
  · refine .inr ⟨hr, ?_⟩
    intro i hi hi'
    rcases Int.lt_or_le mid i with hlt | hle
    · exact hnone i (by omega) hi'
    · have hdown := h.down i mid hi hle hmid hpos
      omega

theorem IsFound.of_left (h : Directs val low high) (hmid : mid ≤ high) (hneg : val mid < 0)
    (hlow : low ≤ mid) (hfound : IsFound val low (mid - 1) r) : IsFound val low high r := by
  rcases hfound with ⟨hge, hle, hzero⟩ | ⟨hr, hnone⟩
  · exact .inl ⟨hge, by omega, hzero⟩
  · refine .inr ⟨hr, ?_⟩
    intro i hi hi'
    rcases Int.lt_or_le i mid with hlt | hle
    · exact hnone i hi (by omega)
    · have hup := h.up mid i hlow hle hi' hneg
      omega

theorem bisect_finds (h : Directs val low high) (fuel : ℕ) (hfuel : (high - low + 1).toNat < fuel) :
    ∃ r, bisect val fuel low high = some r ∧ IsFound val low high r := by
  induction fuel generalizing low high with
  | zero => exact absurd hfuel (Nat.not_lt_zero _)
  | succ fuel ih =>
      rw [bisect]
      by_cases hle : low ≤ high
      · rw [if_pos hle]
        dsimp only
        have hlow : low ≤ low + (high - low) / 2 := by omega
        have hhigh : low + (high - low) / 2 ≤ high := by omega
        by_cases hzero : val (low + (high - low) / 2) = 0
        · rw [if_pos hzero]
          exact ⟨_, rfl, .inl ⟨hlow, hhigh, hzero⟩⟩
        · rw [if_neg hzero]
          by_cases hpos : 0 < val (low + (high - low) / 2)
          · rw [if_pos hpos]
            obtain ⟨r, hrun, hfound⟩ :=
              ih (h.shrink (low + (high - low) / 2 + 1) high (by omega) (Int.le_refl _)) (by omega)
            exact ⟨r, hrun, hfound.of_right h hhigh hpos hlow⟩
          · rw [if_neg hpos]
            obtain ⟨r, hrun, hfound⟩ :=
              ih (h.shrink low (low + (high - low) / 2 - 1) (Int.le_refl _) (by omega)) (by omega)
            exact ⟨r, hrun, hfound.of_left h hhigh (by omega) hlow⟩
      · rw [if_neg hle]
        exact ⟨-1, rfl, .inr ⟨rfl, fun i hi hi' => absurd (Int.le_trans hi hi') hle⟩⟩

/-! ## Searching a list -/

def valueAt (comp : α → α → ℤ) (key : α) (l : List α) (i : ℤ) : ℤ :=
  match l[i.toNat]? with
  | some x => comp key x
  | none => 0

/-- The index is that of a value that compares equal to the key, or -1 when there is none. -/
def Found (comp : α → α → ℤ) (key : α) (l : List α) (idx : ℤ) : Prop :=
  (∃ (i : ℕ) (hi : i < l.length), idx = i ∧ comp key l[i] = 0) ∨
    idx = -1 ∧ ∀ x ∈ l, comp key x ≠ 0

variable {key : α}

theorem valueAt_natCast {i : ℕ} (hi : i < l.length) : valueAt comp key l i = comp key l[i] := by
  rw [valueAt, Int.toNat_natCast, List.getElem?_eq_getElem hi]

theorem Sorted.le (h : Sorted comp l) {i j : ℕ} (hi : i < l.length) (hj : j < l.length)
    (hij : i < j) : comp l[i] l[j] ≤ 0 :=
  List.pairwise_iff_getElem.mp h i j hi hj hij

theorem Sorted.directs (hsorted : Sorted comp l) (h : TotalPreorderOn D comp)
    (hl : ∀ x ∈ l, x ∈ D) (hkey : key ∈ D) :
    Directs (valueAt comp key l) 0 (l.length - 1) := by
  constructor
  · intro i j hi hij hj hpos
    obtain ⟨a, rfl⟩ := Int.eq_ofNat_of_zero_le hi
    obtain ⟨b, rfl⟩ := Int.eq_ofNat_of_zero_le (Int.le_trans hi hij)
    have hb : b < l.length := by omega
    have ha : a < l.length := by omega
    rw [valueAt_natCast hb] at hpos
    rw [valueAt_natCast ha]
    rcases Nat.lt_or_eq_of_le (Int.ofNat_le.mp hij) with hlt | rfl
    · exact h.pos_of_pos hkey (hl _ (List.getElem_mem ha)) (hl _ (List.getElem_mem hb)) hpos
        (hsorted.le ha hb hlt)
    · exact hpos
  · intro i j hi hij hj hneg
    obtain ⟨a, rfl⟩ := Int.eq_ofNat_of_zero_le hi
    obtain ⟨b, rfl⟩ := Int.eq_ofNat_of_zero_le (Int.le_trans hi hij)
    have hb : b < l.length := by omega
    have ha : a < l.length := by omega
    rw [valueAt_natCast ha] at hneg
    rw [valueAt_natCast hb]
    rcases Nat.lt_or_eq_of_le (Int.ofNat_le.mp hij) with hlt | rfl
    · exact h.neg_of_neg hkey (hl _ (List.getElem_mem ha)) (hl _ (List.getElem_mem hb)) hneg
        (hsorted.le ha hb hlt)
    · exact hneg

theorem IsFound.found (h : IsFound (valueAt comp key l) 0 (l.length - 1) r) :
    Found comp key l r := by
  rcases h with ⟨hge, hle, hzero⟩ | ⟨hr, hnone⟩
  · obtain ⟨i, rfl⟩ := Int.eq_ofNat_of_zero_le hge
    have hi : i < l.length := by omega
    rw [valueAt_natCast hi] at hzero
    exact .inl ⟨i, hi, rfl, hzero⟩
  · refine .inr ⟨hr, ?_⟩
    intro x hx
    obtain ⟨i, hi, rfl⟩ := List.mem_iff_getElem.mp hx
    have hne := hnone i (by omega) (by omega)
    rwa [valueAt_natCast hi] at hne

theorem Sorted.bisect_finds (hsorted : Sorted comp l) (h : TotalPreorderOn D comp)
    (hl : ∀ x ∈ l, x ∈ D) (hkey : key ∈ D) :
    ∃ r, bisect (valueAt comp key l) (l.length + 1) 0 (l.length - 1) = some r ∧
      Found comp key l r := by
  obtain ⟨r, hrun, hfound⟩ := Sorting.bisect_finds (hsorted.directs h hl hkey)
    (l.length + 1) (by omega)
  exact ⟨r, hrun, hfound.found⟩

/-! ## Loops that change a list in place -/

/-- A loop over a state does what the loop over the list does, when each round does. -/
theorem foldlM_simulates {σ : Type u} {ε β : Type} {f : List α → β → List α}
    {step : σ → β → Except ε σ} {R : List α → σ → Prop} {is : List β} {s : σ}
    (hstep : ∀ l s i, i ∈ is → R l s → ∃ s', step s i = .ok s' ∧ R (f l i) s') (h : R l s) :
    ∃ s', is.foldlM step s = .ok s' ∧ R (is.foldl f l) s' := by
  induction is generalizing l s with
  | nil => exact ⟨s, rfl, h⟩
  | cons i is ih =>
      obtain ⟨s₁, hrun, h₁⟩ := hstep l s i List.mem_cons_self h
      obtain ⟨s', hrest, h'⟩ :=
        ih (fun l s j hj => hstep l s j (List.mem_cons_of_mem i hj)) h₁
      refine ⟨s', ?_, h'⟩
      rw [List.foldlM_cons, hrun]
      exact hrest

end Sorting
