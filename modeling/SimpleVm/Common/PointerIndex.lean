import SimpleVm.Common.PointerList

/-!
# Indices from the end of a pointer list

A negative index is to count from the end. It is subtracted from the length
where it should be added, so the place read is behind the list, and the index
of the first element counts as too small.
-/

namespace SimpleVm

universe u

namespace PointerList

variable {α : Type u} {elems : List (Option α)} {lst : PointerList α}

/-- The place of the buffer that `index_ptr_list` reads, if any. -/
def readAt (lst : PointerList α) (index : ℤ) : Option ℤ :=
  if 0 ≤ lst.normalizeIndex index then some (lst.normalizeIndex index) else none

/-- An index counts from the front, a negative one from the end, and others give `NULL`. -/
structure CountsFromEnd (elems : List (Option α)) (lst : PointerList α) (index : ℤ) : Prop where
  front : ∀ (i : ℕ) (hi : i < elems.length), index = i → lst.indexPtrList index = .ok elems[i]
  back : ∀ (i : ℕ) (hi : i < elems.length), index = i - elems.length →
    lst.indexPtrList index = .ok elems[i]
  outside : index < -elems.length ∨ elems.length ≤ index → lst.indexPtrList index = .ok none
  inside : ∀ pos, lst.readAt index = some pos → pos < elems.length

theorem Holds.normalize_front (h : Holds elems lst) {i : ℕ} (hi : i < elems.length) :
    lst.normalizeIndex i = i := by
  have hlen := h.len_eq
  rw [normalizeIndex, if_pos ⟨Int.natCast_nonneg i, by omega⟩]

theorem Holds.len_lt (h : Holds elems lst) : (elems.length : ℤ) ≤ 2 ^ 30 := by
  have hlen := h.len_eq
  have hle := h.len_le
  have hcap := h.cap_le
  omega

/-- The place behind the list that a negative index finds, before it is too small. -/
theorem Holds.normalize_back (h : Holds elems lst) {index : ℤ} (hneg : index < 0)
    (hgt : -(elems.length : ℤ) < index) :
    lst.normalizeIndex index = elems.length - index := by
  have hlen := h.len_eq
  have hmax := h.len_lt
  have hopp : toInt (-index) = -index := toInt_of_lt (by omega) (by omega)
  have hsub : toInt (lst.len - index) = elems.length - index := by
    rw [hlen]
    exact toInt_of_lt (by omega) (by omega)
  rw [normalizeIndex, if_neg (by omega), if_pos ⟨hneg, by omega⟩, hsub]

/-- The smallest index is still negative after the subtraction, which overflows. -/
theorem Holds.normalize_small (h : Holds elems lst) {index : ℤ} (hmin : -2 ^ 31 ≤ index)
    (hneg : index < 0) (hle : index ≤ -(elems.length : ℤ)) : lst.normalizeIndex index < 0 := by
  have hlen := h.len_eq
  have hmax := h.len_lt
  rw [normalizeIndex, if_neg (by omega)]
  rcases Int.lt_or_eq_of_le hmin with hlt | rfl
  · have hopp : toInt (-index) = -index := toInt_of_lt (by omega) (by omega)
    rw [if_neg (by omega)]
    decide
  · have hopp : toInt (-(-2 ^ 31)) = -2 ^ 31 := by decide
    have hsub : toInt (lst.len - -2 ^ 31) = lst.len - 2 ^ 31 := by
      unfold toInt
      rw [Int.bmod_def]
      omega
    rw [if_pos ⟨hneg, by omega⟩]
    omega

theorem indexPtrList_of_neg {index : ℤ} (hneg : lst.normalizeIndex index < 0) :
    lst.indexPtrList index = .ok none := by
  simp only [indexPtrList, if_neg (Int.not_le.mpr hneg)]

theorem readAt_of_neg {index : ℤ} (hneg : lst.normalizeIndex index < 0) :
    lst.readAt index = none := by
  rw [readAt, if_neg (Int.not_le.mpr hneg)]

theorem Holds.countsFromEnd_front (h : Holds elems lst) {index : ℤ} (hpos : 0 ≤ index) :
    CountsFromEnd elems lst index := by
  obtain ⟨i, rfl⟩ := Int.eq_ofNat_of_zero_le hpos
  refine ⟨?_, ?_, ?_, ?_⟩
  · intro j hj hij
    obtain rfl := Int.ofNat_inj.mp hij
    exact h.indexPtrList hj
  · intro j hj hij
    omega
  · intro hout
    exact h.indexPtrList_outside (by omega)
  · intro pos hread
    by_cases hi : i < elems.length
    · rw [readAt, h.normalize_front hi, if_pos (Int.natCast_nonneg i)] at hread
      cases hread
      omega
    · have hlen := h.len_eq
      have hnone : lst.normalizeIndex i < 0 := by
        rw [normalizeIndex, if_neg (by omega), if_neg (by omega)]
        decide
      rw [readAt_of_neg hnone] at hread
      cases hread

/-- What is too small gives `NULL`, and so does the index of the first element. -/
theorem Holds.countsFromEnd_small (h : Holds elems lst) {index : ℤ} (hmin : -2 ^ 31 ≤ index)
    (hneg : index < 0) (hle : index ≤ -(elems.length : ℤ)) :
    CountsFromEnd elems lst index ↔ index < -elems.length ∨ elems.head? = some none := by
  have hsmall := h.normalize_small hmin hneg hle
  have hnull := indexPtrList_of_neg hsmall
  have hnone := readAt_of_neg hsmall
  constructor
  · intro hlaw
    rcases Int.lt_or_eq_of_le hle with hlt | heq
    · exact .inl hlt
    · have hpos : 0 < elems.length := by omega
      have hfirst := hlaw.back 0 hpos (by omega)
      rw [hnull] at hfirst
      rw [List.head?_eq_getElem?, List.getElem?_eq_getElem hpos]
      exact .inr (congrArg some (Except.ok.inj hfirst).symm)
  · intro hwhen
    refine ⟨?_, ?_, fun _ => hnull, ?_⟩
    · intro i hi heq
      omega
    · intro i hi heq
      rcases hwhen with hlt | hhead
      · omega
      · obtain rfl : i = 0 := by omega
        rw [List.head?_eq_getElem?, List.getElem?_eq_getElem hi] at hhead
        rw [hnull, Option.some_inj.mp hhead]
    · intro pos hread
      rw [hnone] at hread
      cases hread

/-- When an index counts from the end as it should. -/
theorem counts_from_end_iff (h : Holds elems lst) (index : Int32) :
    CountsFromEnd elems lst index.toInt ↔ 0 ≤ index.toInt ∨ index.toInt < -elems.length ∨
      index.toInt = -elems.length ∧ elems.head? = some none := by
  have hmin := index.le_toInt
  rcases Int.lt_or_le index.toInt 0 with hneg | hpos
  · by_cases hle : index.toInt ≤ -(elems.length : ℤ)
    · rw [h.countsFromEnd_small hmin hneg hle]
      constructor
      · rintro (hlt | hhead)
        · exact .inr (.inl hlt)
        · rcases Int.lt_or_eq_of_le hle with hlt | heq
          · exact .inr (.inl hlt)
          · exact .inr (.inr ⟨heq, hhead⟩)
      · rintro (hge | hlt | ⟨-, hhead⟩)
        · omega
        · exact .inl hlt
        · exact .inr hhead
    · refine iff_of_false ?_ (by omega)
      intro hlaw
      have hback := h.normalize_back hneg (Int.not_le.mp hle)
      have hread : lst.readAt index.toInt = some (elems.length - index.toInt) := by
        rw [readAt, hback, if_pos (by omega)]
      have hlt := hlaw.inside _ hread
      omega
  · exact iff_of_true (h.countsFromEnd_front hpos) (.inl hpos)

def two : PointerList ℕ := ⟨[some 1, some 2] ++ List.replicate 6 none, 2, 8, false⟩

theorem holds_two : Holds [some 1, some 2] two := by
  have hlen : 2 ≤ 8 := by omega
  exact ⟨rfl, List.prefix_append _ _, rfl, hlen, 3, by omega, rfl⟩

theorem two_counts_from_end_iff :
    CountsFromEnd [some 1, some 2] two (1 : Int32).toInt ↔ 0 ≤ (1 : Int32).toInt ∨
      (1 : Int32).toInt < -([some 1, some 2] : List (Option ℕ)).length ∨
      (1 : Int32).toInt = -([some 1, some 2] : List (Option ℕ)).length ∧
        ([some 1, some 2] : List (Option ℕ)).head? = some none :=
  counts_from_end_iff holds_two 1

/-- The last of two elements is looked for at the fourth place. -/
theorem not_counts_from_end_last :
    ¬ ∀ (elems : List (Option ℕ)) (lst : PointerList ℕ) (index : Int32), Holds elems lst →
      CountsFromEnd elems lst index.toInt := by
  intro hall
  have hlast := (hall _ _ (-1) holds_two).back 1 (by decide) (by decide)
  exact absurd hlast (by decide)

end PointerList

end SimpleVm
