import SimpleVm.Common.ArraySafety

/-!
# When a deletion, a read or a swap stays in the block

A deletion reads up to one item behind the last one. Of a read only the pointer
that is handed out counts, and a swap takes every position that has a place.
-/

namespace SimpleVm

namespace ArrayT

variable {u : Unspecified} {arr : ArrayT}

/-! ## Deleting -/

/-- The array has an item, and the bytes that move down are inside the block. -/
def DeleteMeets (arr : ArrayT) (index : ℤ) : Prop :=
  arr.length < index ∨ 1 ≤ arr.length ∧ (arr.size = 0 ∨ 0 ≤ writePosition arr index ∧
    (arr.length < arr.capacity ∨
      writePosition arr index = arr.length ∧ arr.size * (arr.length + 1) < 2 ^ 31))

/-- The call ends well and leaves a length that the block has room for. -/
def EndsBounded (result : Except ArrayHalt ArrayT) : Prop :=
  (∃ arr, result = .ok arr ∧ 0 ≤ arr.length ∧ arr.length ≤ arr.capacity) ∨
    result = .error .indexError ∨ result = .error .fatal

theorem EndsBounded.ends {result : Except ArrayHalt ArrayT} (h : EndsBounded result) :
    Ends result := by
  rcases h with ⟨arr', hok, -⟩ | hstops
  · exact .inl ⟨arr', hok⟩
  · exact .inr hstops

theorem endsBounded_ok_iff {arr' : ArrayT} :
    EndsBounded (.ok arr') ↔ 0 ≤ arr'.length ∧ arr'.length ≤ arr'.capacity := by
  constructor
  · rintro (⟨arr'', hok, hbounds⟩ | herror | hfatal)
    · cases hok
      exact hbounds
    · cases herror
    · cases hfatal
  · intro hbounds
    exact .inl ⟨arr', rfl, hbounds⟩

theorem Sane.int_shorter (h : Sane arr) : int (arr.length - 1) = .ok (arr.length - 1) := by
  have hle := h.length_le
  have hlt := h.capacity_lt
  have hnonneg := h.length_nonneg
  exact int_ok (by omega) (by omega)

theorem Sane.deleteArrayData_empty (h : Sane arr) (u : Unspecified) {index : ℤ}
    (hmin : -2 ^ 31 ≤ index) (hle : index ≤ arr.length) (hsize : arr.size = 0) :
    deleteArrayData u arr index =
      .ok { arr with length := arr.length - 1, isSorted := false } := by
  obtain ⟨l, hl⟩ := h.exists_holds
  obtain ⟨hpos, htail, hlow⟩ := writePosition_bounds h hmin hle
  have hcap := h.length_le
  have hlt := h.capacity_le
  have hnext : int (writePosition arr index + 1) = .ok (writePosition arr index + 1) :=
    int_ok (by omega) (by omega)
  simp only [deleteArrayData, hl.normalizeWriteIndex hmin hle, hnext,
    tailLength_empty hsize (by omega) htail, copyWithin_empty hsize, h.int_shorter, ok_bind]

/-- Behind the last item no bytes are moved, but the next offset is computed. -/
theorem Sane.deleteArrayData_end (h : Sane arr) (u : Unspecified) {index : ℤ}
    (hidx : normalizeWriteIndex arr index = .ok arr.length) :
    deleteArrayData u arr index =
      (int (arr.size * (arr.length + 1)) >>= fun _ =>
        .ok { arr with length := arr.length - 1, isSorted := false }) := by
  have hcap := h.length_le
  have hlt := h.capacity_le
  have hnonneg := h.length_nonneg
  have hnext : int (arr.length + 1) = .ok (arr.length + 1) := int_ok (by omega) (by omega)
  have htail : tailLength arr arr.length = .ok 0 := by
    rw [tailLength, Int.sub_self, int_ok (by omega) (by omega), ok_bind, Int.zero_mul,
      int_ok (by omega) (by omega)]
  obtain ⟨n, hn⟩ := Int.eq_ofNat_of_zero_le hnonneg
  have hoff : byteOffset arr arr.length = .ok ((arr.size * n : ℕ) : ℤ) := by
    rw [hn, h.toFormed.byteOffset (by omega)]
  simp only [deleteArrayData, hidx, hnext, htail, copyWithin, hoff, ok_bind]
  cases hint : byteOffset arr (arr.length + 1) with
  | error e =>
      rw [byteOffset] at hint
      rw [hint]
      rfl
  | ok off =>
      have hload : load u arr off 0 = .ok [] := rfl
      have hstore : store arr ((arr.size * n : ℕ) : ℤ) [] = .ok arr := rfl
      rw [byteOffset] at hint
      simp only [hint, hload, hstore, h.int_shorter, ok_bind]

/-- The item behind the block of a full array is read. -/
theorem Sane.deleteArrayData_fails (h : Sane arr) (hstrict : u.past = none) {index : ℤ}
    (hmin : -2 ^ 31 ≤ index) (hsize : 0 < arr.size) (hlt : writePosition arr index < arr.length)
    (hbad : writePosition arr index < 0 ∨ arr.length = arr.capacity) :
    Fails (deleteArrayData u arr index) := by
  obtain ⟨l, hl⟩ := h.exists_holds
  have hnonneg := h.length_nonneg
  have hle : index ≤ arr.length := by
    unfold writePosition at hlt
    split at hlt <;> omega
  rw [deleteArrayData, hl.normalizeWriteIndex hmin hle, ok_bind]
  apply fails_int_bind
  apply fails_tailLength_bind
  apply Fails.bind
  have hn : 0 < (arr.length - writePosition arr index) * (arr.size : ℤ) :=
    Int.mul_pos (by omega) (by omega)
  rcases Int.lt_or_le (writePosition arr index) 0 with hneg | hge
  · exact fails_copyWithin hstrict hsize hn (.inl hneg)
  · have hfull : arr.length = arr.capacity := by omega
    unfold copyWithin byteOffset
    apply fails_int_bind
    apply fails_int_bind
    have hend : (arr.size : ℤ) * (writePosition arr index + 1) +
        (arr.length - writePosition arr index) * arr.size = arr.size * arr.capacity + arr.size := by
      rw [hfull, Int.sub_mul, Int.mul_add, Int.mul_one, Int.mul_comm (writePosition arr index),
        Int.mul_comm (arr.capacity : ℤ)]
      omega
    have hbuffer := h.length_buffer
    have hout : (arr.buffer.length : ℤ) < arr.size * (writePosition arr index + 1) +
        (arr.length - writePosition arr index) * arr.size := by
      rw [hend, hbuffer, Int.natCast_mul]
      omega
    rw [load_outside (by omega) (.inr (.inr hout)) hstrict]
    exact .inl rfl

/-- Behind the last item it only counts whether there is one, and the next offset. -/
theorem Sane.deleteArrayData_end_iff (h : Sane arr) (u : Unspecified) {index : ℤ}
    (hidx : normalizeWriteIndex arr index = .ok arr.length) :
    EndsBounded (deleteArrayData u arr index) ↔
      1 ≤ arr.length ∧ arr.size * (arr.length + 1) < 2 ^ 31 := by
  have hcap := h.length_le
  have hnonneg := h.length_nonneg
  have hpos : 0 ≤ (arr.size : ℤ) * (arr.length + 1) := Int.mul_nonneg (by omega) (by omega)
  rw [h.deleteArrayData_end u hidx]
  by_cases hbytes : (arr.size : ℤ) * (arr.length + 1) < 2 ^ 31
  · rw [int_ok (by omega) hbytes, ok_bind, endsBounded_ok_iff]
    dsimp only
    constructor
    · intro hbounds
      exact ⟨by omega, hbytes⟩
    · rintro ⟨hone, -⟩
      exact ⟨by omega, by omega⟩
  · have hover : int (arr.size * (arr.length + 1)) = .error .overflow := if_neg (by omega)
    rw [hover]
    refine iff_of_false ?_ ?_
    · intro hends
      exact Fails.not_ends (.inr rfl) hends.ends
    · rintro ⟨-, hfits⟩
      exact hbytes hfits

theorem Sane.next_offset_lt (h : Sane arr) (hroom : arr.length < arr.capacity) :
    (arr.size : ℤ) * (arr.length + 1) < 2 ^ 31 := by
  obtain ⟨n, hn⟩ := Int.eq_ofNat_of_zero_le h.length_nonneg
  have hmul : arr.size * (n + 1) < 2 ^ 31 := h.toFormed.mul_lt (by omega)
  rw [hn]
  exact_mod_cast hmul

theorem Sane.deleteArrayData_iff (h : Sane arr) (hstrict : u.past = none) {index : ℤ}
    (hmin : -2 ^ 31 ≤ index) :
    EndsBounded (deleteArrayData u arr index) ↔ DeleteMeets arr index := by
  obtain ⟨l, hl⟩ := h.exists_holds
  by_cases hgt : arr.length < index
  · have herror := normalizeWriteIndex_error h.length_nonneg hgt
    exact iff_of_true (.inr (.inl (by rw [deleteArrayData, herror, error_bind]))) (.inl hgt)
  have hle := Int.not_lt.mp hgt
  have hidx := hl.normalizeWriteIndex hmin hle
  obtain ⟨hlast, -, -⟩ := writePosition_bounds h hmin hle
  have hcap := h.length_le
  have hnonneg := h.length_nonneg
  have hmeets : DeleteMeets arr index ↔ 1 ≤ arr.length ∧ (arr.size = 0 ∨
      0 ≤ writePosition arr index ∧ (arr.length < arr.capacity ∨
        writePosition arr index = arr.length ∧ arr.size * (arr.length + 1) < 2 ^ 31)) :=
    or_iff_right hgt
  rw [hmeets]
  rcases Nat.eq_zero_or_pos arr.size with hsize | hsize
  · rw [h.deleteArrayData_empty u hmin hle hsize, endsBounded_ok_iff]
    dsimp only
    constructor
    · intro hbounds
      exact ⟨by omega, .inl hsize⟩
    · rintro ⟨hone, -⟩
      exact ⟨by omega, by omega⟩
  · by_cases hend : writePosition arr index = arr.length
    · rw [hend] at hidx ⊢
      rw [h.deleteArrayData_end_iff u hidx]
      apply and_congr_right
      intro hone
      constructor
      · intro hfits
        exact .inr ⟨hnonneg, .inr ⟨rfl, hfits⟩⟩
      · rintro (hzero | ⟨-, hroom | ⟨-, hfits⟩⟩)
        · omega
        · exact h.next_offset_lt hroom
        · exact hfits
    · have hlt : writePosition arr index < arr.length := by omega
      by_cases hbad : writePosition arr index < 0 ∨ arr.length = arr.capacity
      · refine iff_of_false ?_ ?_
        · intro hends
          exact (h.deleteArrayData_fails hstrict hmin hsize hlt hbad).not_ends hends.ends
        · rintro ⟨-, hzero | ⟨hge, hroom | ⟨heq, -⟩⟩⟩ <;> omega
      · obtain ⟨hge, hroom⟩ := not_or.mp hbad
        obtain ⟨i, hi⟩ := Int.eq_ofNat_of_zero_le (Int.not_lt.mp hge)
        have hlen := hl.length_eq
        rw [hi] at hidx
        obtain ⟨arr', hrun, h', -⟩ := hl.deleteArrayData u hidx (by omega) (.inr (by omega))
        refine iff_of_true ?_ ⟨by omega, .inr ⟨by omega, .inl (by omega)⟩⟩
        exact .inl ⟨arr', hrun, h'.sane.length_nonneg, h'.sane.length_le⟩

/-! ## Reading and swapping -/

/-- The pointer handed out is to an item, if the call does not stop or return `NULL`. -/
def IndexMeets (arr : ArrayT) (index : ℤ) : Prop :=
  arr.length = 0 ∨ arr.length < index ∨
    0 ≤ readPosition arr index ∧ readPosition arr index < arr.length

/-- The call stops, returns `NULL`, or hands out a pointer to an item. -/
def HandsOutItem (arr : ArrayT) (result : Except ArrayHalt (Option ℤ)) : Prop :=
  (∃ pos, result = .ok pos ∧ ∀ i, pos = some i → 0 ≤ i ∧ i < arr.length) ∨
    result = .error .indexError ∨ result = .error .fatal

/-- The offset is an `int` or overflows. -/
theorem not_stops_byteOffset_bind {pos : ℤ} {β : Type} {b : β} {result : Except ArrayHalt β}
    (hrun : (byteOffset arr pos >>= fun _ => (.ok b : Except ArrayHalt β)) = result) :
    ¬ (result = .error .indexError ∨ result = .error .fatal) := by
  subst hrun
  unfold byteOffset int
  split
  · rintro (⟨⟨⟩⟩ | ⟨⟨⟩⟩)
  · rintro (⟨⟨⟩⟩ | ⟨⟨⟩⟩)

theorem Sane.indexArrayData_iff (h : Sane arr) {index : ℤ} (hmin : -2 ^ 31 ≤ index) :
    HandsOutItem arr (indexArrayData arr index) ↔ IndexMeets arr index := by
  obtain ⟨l, hl⟩ := h.exists_holds
  have hnonneg := h.length_nonneg
  have hlen := hl.length_eq
  by_cases hempty : arr.length = 0
  · refine iff_of_true (.inl ⟨none, ?_, nofun⟩) (.inl hempty)
    rw [indexArrayData, lenArray, if_neg (by omega)]
  have hpos : 0 < arr.lenArray := by
    rw [lenArray]
    omega
  by_cases hgt : arr.length < index
  · have herror := normalizeReadIndex_error hnonneg hgt
    refine iff_of_true (.inr (.inl ?_)) (.inr (.inl hgt))
    rw [indexArrayData, if_pos hpos, herror, error_bind]
  have hidx := hl.normalizeReadIndex hmin (Int.not_lt.mp hgt)
  by_cases hin : 0 ≤ readPosition arr index ∧ readPosition arr index < arr.length
  · obtain ⟨i, hi⟩ := Int.eq_ofNat_of_zero_le hin.1
    rw [hi] at hidx hin
    refine iff_of_true (.inl ⟨some i, hl.indexArrayData hidx (by omega), ?_⟩) (.inr (.inr ?_))
    · rintro j ⟨⟩
      exact hin
    · rwa [hi]
  · refine iff_of_false ?_ ?_
    · rw [indexArrayData, if_pos hpos, hidx, ok_bind]
      rintro (⟨pos, hrun, hitem⟩ | hstops)
      · obtain ⟨off, -, hok⟩ := bind_eq_ok.mp hrun
        cases hok
        exact hin (hitem _ rfl)
      · exact not_stops_byteOffset_bind rfl hstops
    · rintro (hzero | hgt' | hin')
      · exact hempty hzero
      · exact hgt hgt'
      · exact hin hin'

/-- Both indices are too large, or stand for items of the block. -/
def SwapMeets (arr : ArrayT) (idx1 idx2 : ℤ) : Prop :=
  arr.length < idx1 ∨ arr.length < idx2 ∨ arr.size = 0 ∨
    (0 ≤ readPosition arr idx1 ∧ readPosition arr idx1 < arr.capacity) ∧
      0 ≤ readPosition arr idx2 ∧ readPosition arr idx2 < arr.capacity

theorem Formed.readItem (h : Formed arr) (u : Unspecified) {i : ℕ} (hi : i < arr.capacity) :
    ∃ item, ArrayT.readItem u arr i = .ok item ∧ item.length = arr.size := by
  have hinside : arr.size * i + arr.size ≤ arr.buffer.length := by
    rw [h.length_buffer, ← Nat.mul_succ]
    exact Nat.mul_le_mul_left arr.size hi
  refine ⟨(arr.buffer.drop (arr.size * i)).take arr.size, ?_, ?_⟩
  · rw [ArrayT.readItem, h.byteOffset (Nat.le_of_lt hi), ok_bind, load_inside hinside]
  · rw [List.length_take, List.length_drop]
    omega

theorem Formed.outside (h : Formed arr) (hsize : 0 < arr.size) {pos : ℤ}
    (hout : ¬ (0 ≤ pos ∧ pos < arr.capacity)) :
    arr.size * pos < 0 ∨ (arr.size : ℤ) < 0 ∨
      (arr.buffer.length : ℤ) < arr.size * pos + arr.size := by
  rcases Int.lt_or_le pos 0 with hneg | hge
  · exact .inl (Int.mul_neg_of_pos_of_neg (by omega) hneg)
  · obtain ⟨i, rfl⟩ := Int.eq_ofNat_of_zero_le hge
    have hmul : arr.size * arr.capacity ≤ arr.size * i := Nat.mul_le_mul_left arr.size (by omega)
    rw [h.length_buffer, ← Int.natCast_mul]
    omega

theorem Formed.fails_readItem (h : Formed arr) (hstrict : u.past = none) (hsize : 0 < arr.size)
    {pos : ℤ} (hout : ¬ (0 ≤ pos ∧ pos < arr.capacity)) : Fails (ArrayT.readItem u arr pos) := by
  unfold ArrayT.readItem ArrayT.byteOffset
  apply fails_int_bind
  exact .inl (load_outside (by omega) (h.outside hsize hout) hstrict)

theorem Formed.copyItem (h : Formed arr) (u : Unspecified) {i j : ℕ} (hi : i < arr.capacity)
    (hj : j < arr.capacity) :
    ∃ buffer, copyWithin u arr i j arr.size = .ok { arr with buffer := buffer } ∧
      buffer.length = arr.buffer.length := by
  obtain ⟨item, hread, hitem⟩ := h.readItem u hj
  obtain ⟨arr', hwrite⟩ : ∃ arr', ArrayT.writeItem arr i item = .ok arr' :=
    ⟨_, h.writeItem hi hitem⟩
  rw [ArrayT.readItem, h.byteOffset (Nat.le_of_lt hj), ok_bind] at hread
  rw [ArrayT.writeItem, h.byteOffset (Nat.le_of_lt hi), ok_bind] at hwrite
  obtain ⟨buffer, rfl, hlen⟩ := store_ok hwrite
  refine ⟨buffer, ?_, hlen⟩
  simp only [copyWithin, h.byteOffset (Nat.le_of_lt hi), h.byteOffset (Nat.le_of_lt hj), hread,
    hwrite, ok_bind]

theorem Formed.fails_copyItem (h : Formed arr) (hstrict : u.past = none) (hsize : 0 < arr.size)
    {dest src : ℤ} (hout : ¬ (0 ≤ src ∧ src < arr.capacity)) :
    Fails (copyWithin u arr dest src arr.size) := by
  unfold copyWithin ArrayT.byteOffset
  apply fails_int_bind
  apply fails_int_bind
  rw [load_outside (by omega) (h.outside hsize hout) hstrict]
  exact .inl rfl

theorem swapArrayData_empty (u : Unspecified) {idx1 idx2 pos₁ pos₂ : ℤ}
    (h₁ : normalizeReadIndex arr idx1 = .ok pos₁) (h₂ : normalizeReadIndex arr idx2 = .ok pos₂)
    (hsize : arr.size = 0) :
    swapArrayData u arr idx1 idx2 = .ok { arr with isSorted := false } := by
  have hread : readItem u arr pos₁ = .ok [] := by
    rw [readItem, byteOffset_empty hsize, ok_bind, hsize]
    rfl
  have hwrite : writeItem arr pos₂ [] = .ok arr := by
    rw [writeItem, byteOffset_empty hsize, ok_bind]
    rfl
  have hcopy : copyWithin u arr pos₁ pos₂ arr.size = .ok arr := by
    rw [hsize]
    exact copyWithin_empty hsize pos₁ pos₂
  simp only [swapArrayData, h₁, h₂, hread, hcopy, hwrite, ok_bind]

theorem Formed.swapArrayData (h : Formed arr) (u : Unspecified) {idx1 idx2 : ℤ} {i j : ℕ}
    (h₁ : normalizeReadIndex arr idx1 = .ok (i : ℤ))
    (h₂ : normalizeReadIndex arr idx2 = .ok (j : ℤ)) (hi : i < arr.capacity) (hj : j < arr.capacity) :
    ∃ arr', ArrayT.swapArrayData u arr idx1 idx2 = .ok arr' := by
  obtain ⟨tmp, hread, htmp⟩ := h.readItem u hi
  obtain ⟨buffer, hcopy, hlen⟩ := h.copyItem u hi hj
  obtain ⟨arr', hwrite⟩ : ∃ arr', ArrayT.writeItem { arr with buffer := buffer } j tmp = .ok arr' :=
    ⟨_, (h.withBuffer hlen).writeItem hj htmp⟩
  refine ⟨{ arr' with isSorted := false }, ?_⟩
  rw [ArrayT.swapArrayData, h₁, ok_bind, h₂, ok_bind, hread, ok_bind, hcopy, ok_bind, hwrite,
    ok_bind]

theorem Sane.swapArrayData_iff (h : Sane arr) (hstrict : u.past = none) {idx1 idx2 : ℤ}
    (hmin₁ : -2 ^ 31 ≤ idx1) (hmin₂ : -2 ^ 31 ≤ idx2) :
    Ends (ArrayT.swapArrayData u arr idx1 idx2) ↔ SwapMeets arr idx1 idx2 := by
  obtain ⟨l, hl⟩ := h.exists_holds
  by_cases hgt₁ : arr.length < idx1
  · have herror := normalizeReadIndex_error h.length_nonneg hgt₁
    exact iff_of_true (.inr (.inl (by rw [ArrayT.swapArrayData, herror, error_bind]))) (.inl hgt₁)
  have hidx₁ := hl.normalizeReadIndex hmin₁ (Int.not_lt.mp hgt₁)
  by_cases hgt₂ : arr.length < idx2
  · have herror := normalizeReadIndex_error h.length_nonneg hgt₂
    refine iff_of_true (.inr (.inl ?_)) (.inr (.inl hgt₂))
    simp only [ArrayT.swapArrayData, hidx₁, herror, ok_bind, error_bind]
  have hidx₂ := hl.normalizeReadIndex hmin₂ (Int.not_lt.mp hgt₂)
  have hmeets : SwapMeets arr idx1 idx2 ↔ arr.size = 0 ∨
      (0 ≤ readPosition arr idx1 ∧ readPosition arr idx1 < arr.capacity) ∧
        0 ≤ readPosition arr idx2 ∧ readPosition arr idx2 < arr.capacity :=
    (or_iff_right hgt₁).trans (or_iff_right hgt₂)
  rw [hmeets]
  rcases Nat.eq_zero_or_pos arr.size with hsize | hsize
  · exact iff_of_true (.inl ⟨_, swapArrayData_empty u hidx₁ hidx₂ hsize⟩) (.inl hsize)
  rw [or_iff_right (by omega : ¬ arr.size = 0)]
  constructor
  · intro hends
    simp only [ArrayT.swapArrayData, hidx₁, hidx₂, ok_bind] at hends
    by_contra hout
    rcases not_and_or.mp hout with hout₁ | hout₂
    · exact ((h.fails_readItem hstrict hsize hout₁).bind _).not_ends hends
    · by_cases hin₁ : 0 ≤ readPosition arr idx1 ∧ readPosition arr idx1 < arr.capacity
      · obtain ⟨i, hi⟩ := Int.eq_ofNat_of_zero_le hin₁.1
        obtain ⟨tmp, hread, -⟩ := h.toFormed.readItem u (i := i) (by omega)
        rw [hi, hread, ok_bind] at hends
        exact ((h.fails_copyItem hstrict hsize hout₂).bind _).not_ends hends
      · exact ((h.fails_readItem hstrict hsize hin₁).bind _).not_ends hends
  · rintro ⟨hin₁, hin₂⟩
    obtain ⟨i, hi⟩ := Int.eq_ofNat_of_zero_le hin₁.1
    obtain ⟨j, hj⟩ := Int.eq_ofNat_of_zero_le hin₂.1
    rw [hi] at hidx₁ hin₁
    rw [hj] at hidx₂ hin₂
    exact .inl (h.toFormed.swapArrayData u hidx₁ hidx₂ (by omega) (by omega))

end ArrayT

end SimpleVm
