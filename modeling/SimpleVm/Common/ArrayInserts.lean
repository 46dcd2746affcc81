import SimpleVm.Common.ArraySafety

/-!
# When an insertion stays in the block

An item is inserted well when the array can grow by one and the index is not
too small. For a whole array the bytes of the source must end in the block too.
-/

namespace SimpleVm

namespace ArrayT

variable {u : Unspecified} {arr : ArrayT}

/-! ## Inserting an item -/

/-- The array can grow by one item, and the index is not too small. -/
def InsertMeets (arr : ArrayT) (index : ℤ) : Prop :=
  arr.length < index ∨ Fits arr 1 ∧ (arr.size = 0 ∨ 0 ≤ writePosition arr index)

theorem Sane.insertArrayData_empty (h : Sane arr) (u : Unspecified) {index : ℤ}
    (hmin : -2 ^ 31 ≤ index) (hle : index ≤ arr.length) (hfits : Fits arr 1) (hsize : arr.size = 0)
    (data : ℕ → UInt8) : Ends (insertArrayData u arr data index) := by
  obtain ⟨l, hl⟩ := h.exists_holds
  have hidx := hl.normalizeWriteIndex hmin hle
  obtain ⟨hpos, htail, hlow⟩ := writePosition_bounds h hmin hle
  by_cases hrefused : Refused arr 1
  · have hresize : resize u arr 1 = .error .fatal := hl.resize_fatal u (n := 1) hfits hrefused
    exact .inr (.inr (by rw [insertArrayData, hidx, ok_bind, hresize, error_bind]))
  obtain ⟨arr₁, hresize, h₁, hgrown, -, hlength⟩ := hl.resize_one u ⟨hfits, hrefused⟩
  have hlen₁ : arr₁.length = arr.length := h₁.length_eq.trans hl.length_eq.symm
  have hzero₁ : arr₁.size = 0 := hgrown.size_eq.trans hsize
  have hcap := h.length_le
  have hlt := h.capacity_le
  have hnext : int (writePosition arr index + 1) = .ok (writePosition arr index + 1) :=
    int_ok (by omega) (by omega)
  refine .inl ⟨{ arr₁ with length := arr₁.length + 1, isSorted := false }, ?_⟩
  rw [insertArrayData, hidx, ok_bind, hresize, ok_bind, hnext, ok_bind,
    tailLength_empty hzero₁ (by omega) (by omega), ok_bind, copyWithin_empty hzero₁, ok_bind,
    writeItem_empty hzero₁, ok_bind, hlength, ok_bind]

theorem Sane.insertArrayData_fails (h : Sane arr) (hstrict : u.past = none) {index : ℤ}
    (hmin : -2 ^ 31 ≤ index) (hsize : 0 < arr.size) (hneg : writePosition arr index < 0)
    (data : ℕ → UInt8) : Fails (insertArrayData u arr data index) := by
  obtain ⟨l, hl⟩ := h.exists_holds
  have hnonneg := h.length_nonneg
  have hle : index ≤ arr.length := by
    unfold writePosition at hneg
    split at hneg <;> omega
  rw [insertArrayData, hl.normalizeWriteIndex hmin hle, ok_bind]
  by_cases hfits : Fits arr 1
  · obtain ⟨arr₁, hresize, h₁, hgrown, -⟩ := hl.resize_one u (hfits.grows hsize)
    have hsize₁ : 0 < arr₁.size := by rwa [hgrown.size_eq]
    rw [hresize, ok_bind]
    apply fails_int_bind
    exact h₁.sane.fails_openGap hstrict hsize₁ hneg _ _
  · have hresize : resize u arr 1 = .error .overflow := hl.resize_overflow u (n := 1) hfits
    rw [hresize]
    exact .inr rfl

theorem Sane.insertArrayData_iff (h : Sane arr) (hstrict : u.past = none) {index : ℤ}
    (hmin : -2 ^ 31 ≤ index) (data : ℕ → UInt8) :
    Ends (insertArrayData u arr data index) ↔ InsertMeets arr index := by
  obtain ⟨l, hl⟩ := h.exists_holds
  by_cases hgt : arr.length < index
  · have herror := normalizeWriteIndex_error h.length_nonneg hgt
    exact iff_of_true (.inr (.inl (by rw [insertArrayData, herror, error_bind]))) (.inl hgt)
  have hle := Int.not_lt.mp hgt
  constructor
  · intro hends
    by_cases hfits : Fits arr 1
    · refine .inr ⟨hfits, ?_⟩
      by_contra hbad
      obtain ⟨hsize, hneg⟩ := not_or.mp hbad
      exact (h.insertArrayData_fails hstrict hmin (by omega) (by omega) data).not_ends hends
    · have hresize : resize u arr 1 = .error .overflow := hl.resize_overflow u (n := 1) hfits
      rw [insertArrayData, hl.normalizeWriteIndex hmin hle, ok_bind, hresize] at hends
      exact (Fails.not_ends (.inr rfl) hends).elim
  · rintro (hgt' | ⟨hfits, hpos⟩)
    · exact (hgt hgt').elim
    rcases Nat.eq_zero_or_pos arr.size with hsize | hsize
    · exact h.insertArrayData_empty u hmin hle hfits hsize data
    · obtain ⟨i, hi⟩ := Int.eq_ofNat_of_zero_le (a := writePosition arr index) (by omega)
      have hidx := hl.normalizeWriteIndex hmin hle
      have hlast := (writePosition_bounds h hmin hle).1
      have hlen := hl.length_eq
      rw [hi] at hidx hlast
      obtain ⟨arr', hrun, -⟩ := hl.insertArrayData u hidx (by omega) (hfits.grows hsize) data
      exact .inl ⟨arr', hrun⟩

/-! ## Inserting another array -/

/-- The source is as `s`, also while the destination is changed and it is the same array. -/
def Source (dest : ArrayT) (src : ArrayT → ArrayT) (s : ArrayT) : Prop :=
  ∀ arr, Sane arr → arr.size = dest.size → arr.length = dest.length →
    Sane (src arr) ∧ (src arr).size = s.size ∧ (src arr).length = s.length

theorem source_other (dest : ArrayT) {s : ArrayT} (hs : Sane s) : Source dest (fun _ => s) s :=
  fun _ _ _ _ => ⟨hs, rfl, rfl⟩

theorem source_self (dest : ArrayT) : Source dest id dest :=
  fun _ h hsize hlen => ⟨h, hsize, hlen⟩

/-- The bytes of the source end inside the smallest block with room for all the items. -/
def SourceFits (dest src : ArrayT) (pos : ℤ) : Prop :=
  src.size * src.length = 0 ∨ ∀ e : ℕ, dest.length + src.length ≤ (dest.capacity * 2 ^ e : ℕ) →
    dest.size * pos + src.size * src.length ≤ (dest.size * (dest.capacity * 2 ^ e) : ℕ)

def InsertArrayMeets (dest src : ArrayT) (index : ℤ) : Prop :=
  dest.length < index ∨ Fits dest src.length ∧ (Refused dest src.length ∨
    (dest.size = 0 ∨ 0 ≤ writePosition dest index) ∧
      SourceFits dest src (writePosition dest index))

theorem Grown.sourceFits_iff {dest dest₁ src : ArrayT} (h : Grown src.length dest dest₁) (pos : ℤ) :
    SourceFits dest src pos ↔ src.size * src.length = 0 ∨
      dest.size * pos + src.size * src.length ≤ (dest.size * dest₁.capacity : ℕ) := by
  apply or_congr_right
  constructor
  · intro hall
    obtain ⟨e, he⟩ := h.reached
    have hroom := h.room
    rw [he] at hroom ⊢
    exact hall e hroom
  · intro hle e he
    have hmul := Nat.mul_le_mul_left dest.size (h.least e he)
    omega

/-- After the gap is open it only matters whether the bytes of the source can be stored. -/
theorem Sane.insertArray_ends_iff {dest₂ s : ArrayT} {src : ArrayT → ArrayT} (h : Sane dest₂)
    (u : Unspecified) (hsrc : Source dest₂ src s) (hroom : dest₂.length + s.length ≤ dest₂.capacity)
    (hs : 0 ≤ s.length) {pos : ℤ} (hpos : dest₂.size = 0 ∨ 0 ≤ pos) :
    Ends (do
      let start ← byteOffset (src dest₂) 0
      let n ← tailLength (src dest₂) 0
      let bytes ← load u (src dest₂) start n
      let dest ← store dest₂ (dest₂.size * pos) bytes
      let length ← int (dest.length + (src dest).length)
      .ok { dest with length := length, isSorted := false }) ↔
    s.size * s.length = 0 ∨
      dest₂.size * pos + s.size * s.length ≤ (dest₂.size * dest₂.capacity : ℕ) := by
  obtain ⟨hsane, hsize, hlen⟩ := hsrc dest₂ h rfl rfl
  obtain ⟨bytes, hload, hbytes⟩ := hsane.load_all u
  simp only [byteOffset_zero, hsane.tailLength_zero, hload, ok_bind]
  rw [hsize, hlen] at hbytes
  have hbuffer := h.length_buffer
  have hoff : 0 ≤ (dest₂.size : ℤ) * pos := by
    rcases hpos with hzero | hge
    · have hnone : (dest₂.size : ℤ) * pos = 0 := by rw [hzero, Int.natCast_zero, Int.zero_mul]
      exact Int.le_of_eq hnone.symm
    · exact Int.mul_nonneg (Int.natCast_nonneg _) hge
  by_cases hfit : bytes = [] ∨ dest₂.size * pos + bytes.length ≤ dest₂.buffer.length
  · obtain ⟨buffer, hstore, hbuffer'⟩ := exists_store hoff hfit
    have hstored := h.withBuffer hbuffer'
    obtain ⟨-, -, hlen'⟩ := hsrc _ hstored rfl rfl
    have hcap := h.capacity_lt
    have hnonneg := h.length_nonneg
    have hlength : int (dest₂.length + s.length) = .ok (dest₂.length + s.length) :=
      int_ok (by omega) (by omega)
    rw [hstore, ok_bind]
    dsimp only
    rw [hlen', hlength, ok_bind]
    refine iff_of_true (.inl ⟨_, rfl⟩) ?_
    rcases hfit with hnil | hle
    · rw [hnil, List.length_nil] at hbytes
      exact .inl hbytes.symm
    · exact .inr (by omega)
  · obtain ⟨hne, hout⟩ := not_or.mp hfit
    rw [store_outside hne (.inr (Int.not_le.mp hout)), error_bind]
    refine iff_of_false (Fails.not_ends (.inl rfl)) ?_
    rintro (hzero | hle)
    · rw [hzero] at hbytes
      exact hne (List.length_eq_zero_iff.mp (by omega))
    · omega

theorem Source.grown {dest dest₁ s : ArrayT} {src : ArrayT → ArrayT} (h : Source dest src s)
    (hsize : dest₁.size = dest.size) (hlen : dest₁.length = dest.length) : Source dest₁ src s :=
  fun arr harr hsize' hlen' => h arr harr (hsize'.trans hsize) (hlen'.trans hlen)

theorem Sane.insertArray_iff {dest s : ArrayT} {src : ArrayT → ArrayT} (h : Sane dest)
    (hstrict : u.past = none) (hsrc : Source dest src s) (hs : 0 ≤ s.length) {index : ℤ}
    (hmin : -2 ^ 31 ≤ index) :
    Ends (insertArray u dest src index) ↔ InsertArrayMeets dest s index := by
  obtain ⟨l, hl⟩ := h.exists_holds
  by_cases hgt : dest.length < index
  · have herror := normalizeWriteIndex_error h.length_nonneg hgt
    exact iff_of_true (.inr (.inl (by rw [insertArray, herror, error_bind]))) (.inl hgt)
  have hle := Int.not_lt.mp hgt
  have hidx := hl.normalizeWriteIndex hmin hle
  obtain ⟨hlast, htail, hlow⟩ := writePosition_bounds h hmin hle
  obtain ⟨-, -, hlen⟩ := hsrc dest h rfl rfl
  obtain ⟨k, hk⟩ := Int.eq_ofNat_of_zero_le hs
  by_cases hfits : Fits dest s.length
  · by_cases hrefused : Refused dest s.length
    · have hresize := hl.resize_fatal u (hk ▸ hfits) (hk ▸ hrefused)
      rw [← hk] at hresize
      refine iff_of_true (.inr (.inr ?_)) (.inr ⟨hfits, .inl hrefused⟩)
      simp only [insertArray, hidx, hlen, hresize, ok_bind, error_bind]
    have hgrows : Grows dest (k : ℤ) := hk ▸ ⟨hfits, hrefused⟩
    obtain ⟨dest₁, hresize, h₁, hgrown⟩ := hl.resize u hgrows
    have hsize₁ := hgrown.size_eq
    have hlen₁ : dest₁.length = dest.length := h₁.length_eq.trans hl.length_eq.symm
    rw [← hk] at hresize hgrown
    have hsrc₁ := hsrc.grown hsize₁ hlen₁
    obtain ⟨-, -, hlen'⟩ := hsrc₁ dest₁ h₁.sane rfl rfl
    have hroom := hgrown.room
    have hcap := h₁.sane.capacity_lt
    have hbehind : int (writePosition dest index + s.length) =
        .ok (writePosition dest index + s.length) := int_ok (by omega) (by omega)
    simp only [insertArray, hidx, hlen, hresize, hlen', hbehind, ok_bind]
    by_cases hpos : dest.size = 0 ∨ 0 ≤ writePosition dest index
    · have hpos₁ : dest₁.size = 0 ∨ 0 ≤ writePosition dest index := by rwa [hsize₁]
      obtain ⟨tail, dest₂, htail', hcopy, h₂, hsize₂, hlen₂, hcap₂, hoff⟩ :=
        h₁.sane.openGap u hs (by omega) (by omega) (by omega) hpos₁
      have hsrc₂ := hsrc₁.grown hsize₂ hlen₂
      have hends := h₂.insertArray_ends_iff u hsrc₂ (by omega) hs (hsize₂.symm ▸ hpos₁)
      rw [htail', ok_bind, hcopy, ok_bind, hoff, ok_bind, ← hsize₂, hends, hsize₂, hsize₁, hcap₂,
        ← hgrown.sourceFits_iff]
      constructor
      · intro hfit
        exact .inr ⟨hfits, .inr ⟨hpos, hfit⟩⟩
      · rintro (hgt' | ⟨-, hrefused' | ⟨-, hfit⟩⟩)
        · exact (hgt hgt').elim
        · exact (hrefused hrefused').elim
        · exact hfit
    · obtain ⟨hsize, hneg⟩ := not_or.mp hpos
      have hsize' : 0 < dest₁.size := by omega
      refine iff_of_false (Fails.not_ends ?_) ?_
      · exact h₁.sane.fails_openGap hstrict hsize' (Int.not_le.mp hneg) _ _
      · rintro (hgt' | ⟨-, hrefused' | ⟨hpos', -⟩⟩)
        · exact hgt hgt'
        · exact hrefused hrefused'
        · exact hpos hpos'
  · have hnot := hfits
    rw [hk] at hnot
    have hresize := hl.resize_overflow u hnot
    rw [← hk] at hresize
    simp only [insertArray, hidx, hlen, hresize, ok_bind, error_bind]
    refine iff_of_false (Fails.not_ends (.inr rfl)) ?_
    rintro (hgt' | ⟨hfits', -⟩)
    · exact hgt hgt'
    · exact hfits hfits'

end ArrayT

end SimpleVm
