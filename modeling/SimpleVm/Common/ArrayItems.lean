import SimpleVm.Common.Array

/-!
# The items of an array

An array holds a list when its items are the first ones of the block. The
lemmas here say what is read of it, what its indices stand for, and that it
grows without losing an item unless an `int` overflows.
-/

namespace SimpleVm

namespace ArrayT

/-! ## Values of an `int` -/

theorem int_ok {n : ℤ} (h₀ : -2 ^ 31 ≤ n) (h₁ : n < 2 ^ 31) : int n = .ok n := if_pos ⟨h₀, h₁⟩

theorem int_natCast {n : ℕ} (h : n < 2 ^ 31) : int n = .ok (n : ℤ) := int_ok (by omega) (by omega)

theorem nat_ok {n : ℕ} (h : n < 2 ^ 31) : nat n = .ok n := if_pos h

theorem nat_overflow {n : ℕ} (h : ¬ n < 2 ^ 31) : nat n = .error .overflow := if_neg h

/-! ## Well-formed arrays -/

/-- The block is as large as the array says, and its size is an `int`. -/
structure Formed (arr : ArrayT) : Prop where
  length_buffer : arr.buffer.length = arr.size * arr.capacity
  capacity_ge : 8 ≤ arr.capacity
  capacity_pow : ∃ e, arr.capacity = 2 ^ e
  capacity_lt : arr.capacity < 2 ^ 31
  bytes_lt : arr.size * arr.capacity < 2 ^ 31

/-- The items of the array are `l`. -/
structure Holds (l : List (List UInt8)) (arr : ArrayT) : Prop extends Formed arr where
  length_eq : arr.length = l.length
  length_le : l.length ≤ arr.capacity
  sizes : ∀ x ∈ l, x.length = arr.size
  items_start : l.flatten <+: arr.buffer

variable {u : Unspecified} {arr : ArrayT} {l : List (List UInt8)}

theorem Formed.mul_lt (h : Formed arr) {i : ℕ} (hi : i ≤ arr.capacity) :
    arr.size * i < 2 ^ 31 :=
  Nat.lt_of_le_of_lt (Nat.mul_le_mul_left arr.size hi) h.bytes_lt

/-- The largest capacity is a power of two. -/
theorem Formed.capacity_le (h : Formed arr) : arr.capacity ≤ 2 ^ 30 := by
  obtain ⟨e, he⟩ := h.capacity_pow
  have hlt := h.capacity_lt
  rw [he] at hlt ⊢
  have hexp : e < 31 := (Nat.pow_lt_pow_iff_right Nat.one_lt_two).mp hlt
  exact Nat.pow_le_pow_right Nat.two_pos (by omega)

theorem Formed.byteOffset (h : Formed arr) {i : ℕ} (hi : i ≤ arr.capacity) :
    ArrayT.byteOffset arr i = .ok ((arr.size * i : ℕ) : ℤ) := by
  have hlt := h.mul_lt hi
  rw [ArrayT.byteOffset, ← Int.natCast_mul, int_natCast hlt]

theorem Holds.tailLength (h : Holds l arr) {i : ℕ} (hi : i ≤ l.length) :
    ArrayT.tailLength arr i = .ok ((arr.size * (l.length - i) : ℕ) : ℤ) := by
  have hle := h.length_le
  have hcap := h.capacity_lt
  have hsub : arr.length - i = (l.length - i : ℕ) := by
    rw [h.length_eq]
    omega
  have hlt : arr.size * (l.length - i) < 2 ^ 31 := h.mul_lt (by omega)
  rw [ArrayT.tailLength, hsub, int_natCast (by omega), ok_bind, ← Int.natCast_mul,
    Nat.mul_comm (l.length - i), int_natCast hlt]

theorem length_flatten {k : ℕ} (hl : ∀ x ∈ l, x.length = k) : l.flatten.length = k * l.length := by
  induction l with
  | nil => rfl
  | cons x l ih =>
      rw [List.flatten_cons, List.length_append, ih fun y hy => hl y (List.mem_cons_of_mem x hy),
        hl x List.mem_cons_self, List.length_cons, Nat.mul_succ, Nat.add_comm]

theorem length_itemAt (size : ℕ) (data : ℕ → UInt8) : (itemAt size data).length = size := by
  rw [itemAt, List.length_map, List.length_range]

theorem Holds.length_take (h : Holds l arr) {i : ℕ} (hi : i ≤ l.length) :
    (l.take i).flatten.length = arr.size * i := by
  rw [length_flatten fun x hx => h.sizes x (List.mem_of_mem_take hx), List.length_take,
    Nat.min_eq_left hi]

theorem Holds.length_drop (h : Holds l arr) (i : ℕ) :
    (l.drop i).flatten.length = arr.size * (l.length - i) := by
  rw [length_flatten fun x hx => h.sizes x (List.mem_of_mem_drop hx), List.length_drop]

/-- The block from the front: the items, cut anywhere, and what is behind them. -/
theorem Holds.exists_rest (h : Holds l arr) (i : ℕ) :
    ∃ rest, arr.buffer = (l.take i).flatten ++ (l.drop i).flatten ++ rest ∧
      rest.length = arr.size * (arr.capacity - l.length) := by
  obtain ⟨rest, hrest⟩ := h.items_start
  refine ⟨rest, ?_, ?_⟩
  · rw [← List.flatten_append, List.take_append_drop, hrest]
  · have hlen := congrArg List.length hrest
    rw [List.length_append, length_flatten h.sizes, h.length_buffer] at hlen
    rw [Nat.mul_sub]
    omega

/-! ## Reading and writing -/

theorem load_inside {off n : ℕ} (h : off + n ≤ arr.buffer.length) :
    load u arr off n = .ok ((arr.buffer.drop off).take n) := by
  unfold load
  by_cases hn : n = 0
  · rw [if_pos (by omega), hn, List.take_zero]
  · rw [if_neg (by omega), if_neg (by omega), Int.toNat_natCast, Int.toNat_natCast, Block.load?,
      if_pos h]

theorem store_inside {off : ℕ} {bytes : List UInt8} (h : off + bytes.length ≤ arr.buffer.length) :
    store arr off bytes = .ok { arr with buffer := Block.overwrite arr.buffer off bytes } := by
  unfold store
  by_cases hempty : bytes = []
  · have hsame : Block.overwrite arr.buffer off [] = arr.buffer := by
      simp [Block.overwrite]
    rw [hempty, hsame]
    rfl
  · rw [if_neg (by simp [hempty]), if_neg (by omega), Int.toNat_natCast, Block.store?_eq h]

theorem Formed.writeItem (h : Formed arr) {i : ℕ} (hi : i < arr.capacity) {item : List UInt8}
    (hitem : item.length = arr.size) :
    ArrayT.writeItem arr i item =
      .ok { arr with buffer := Block.overwrite arr.buffer (arr.size * i) item } := by
  have hinside : arr.size * i + item.length ≤ arr.buffer.length := by
    rw [h.length_buffer, hitem, ← Nat.mul_succ]
    exact Nat.mul_le_mul_left arr.size hi
  rw [ArrayT.writeItem, h.byteOffset (Nat.le_of_lt hi), ok_bind, store_inside hinside]

theorem Holds.load_item (h : Holds l arr) (u : Unspecified) {i : ℕ} (hi : i < l.length) :
    load u arr ((arr.size * i : ℕ) : ℤ) arr.size = .ok l[i] := by
  have hle := h.length_le
  have hinside : arr.size * i + arr.size ≤ arr.buffer.length := by
    rw [h.length_buffer, ← Nat.mul_succ]
    exact Nat.mul_le_mul_left arr.size (by omega)
  obtain ⟨rest, hbuffer, -⟩ := h.exists_rest i
  have hitem : l[i].length = arr.size := h.sizes _ (List.getElem_mem hi)
  have hbytes : (arr.buffer.drop (arr.size * i)).take arr.size = l[i] := by
    rw [hbuffer, List.append_assoc, ← h.length_take (Nat.le_of_lt hi), List.drop_left,
      List.drop_eq_getElem_cons hi, List.flatten_cons, List.append_assoc, ← hitem, List.take_left]
  rw [load_inside hinside, hbytes]

theorem Holds.readItem (h : Holds l arr) (u : Unspecified) {i : ℕ} (hi : i < l.length) :
    ArrayT.readItem u arr i = .ok l[i] := by
  have hle := h.length_le
  rw [ArrayT.readItem, h.byteOffset (by omega), ok_bind, h.load_item u hi]

/-! ## Growing -/

/-- A capacity for `n` more items and its size in bytes are values of an `int`. -/
def Fits (arr : ArrayT) (n : ℤ) : Prop :=
  ∃ e : ℕ, arr.length + n ≤ (arr.capacity * 2 ^ e : ℕ) ∧ arr.capacity * 2 ^ e < 2 ^ 31 ∧
    arr.size * (arr.capacity * 2 ^ e) < 2 ^ 31

/-- More room for items of no bytes is asked of the allocator as a block of no bytes. -/
def Refused (arr : ArrayT) (n : ℤ) : Prop := arr.size = 0 ∧ arr.capacity < arr.length + n

def Grows (arr : ArrayT) (n : ℤ) : Prop := Fits arr n ∧ ¬ Refused arr n

theorem Fits.grows {n : ℤ} (h : Fits arr n) (hsize : 0 < arr.size) : Grows arr n :=
  ⟨h, fun hrefused => Nat.ne_of_gt hsize hrefused.1⟩

theorem memRealloc_ok (fresh : ℕ → UInt8) (block : List UInt8) {bytes : ℕ} (h : 0 < bytes) :
    memRealloc fresh block bytes = .ok (Block.grow fresh block bytes) :=
  if_neg (Nat.ne_of_gt h)

/-- The capacity is doubled as often as it has to be. -/
theorem doubled_cases (shifts : ℕ) (needed : ℤ) {capacity : ℕ} (hlt : capacity < 2 ^ 31)
    (hshifts : 2 ^ 31 ≤ capacity * 2 ^ shifts) :
    (∃ e, doubled shifts needed capacity = .ok (capacity * 2 ^ e) ∧
      needed ≤ (capacity * 2 ^ e : ℕ) ∧ capacity * 2 ^ e < 2 ^ 31 ∧
      ∀ e' : ℕ, needed ≤ (capacity * 2 ^ e' : ℕ) → capacity * 2 ^ e ≤ capacity * 2 ^ e') ∨
    doubled shifts needed capacity = .error .overflow ∧
      ∀ e : ℕ, capacity * 2 ^ e < 2 ^ 31 → ¬ needed ≤ (capacity * 2 ^ e : ℕ) := by
  induction shifts generalizing capacity with
  | zero =>
      rw [Nat.pow_zero, Nat.mul_one] at hshifts
      omega
  | succ shifts ih =>
      by_cases hneeded : needed ≤ capacity
      · have hone : capacity * 2 ^ 0 = capacity := by rw [Nat.pow_zero, Nat.mul_one]
        refine .inl ⟨0, ?_, by rwa [hone], by rwa [hone], ?_⟩
        · rw [doubled, if_pos hneeded, hone]
        · intro e' _
          exact Nat.mul_le_mul_left capacity (Nat.pow_le_pow_right Nat.two_pos (Nat.zero_le e'))
      · have hsucc : ∀ e, 2 * capacity * 2 ^ e = capacity * 2 ^ (e + 1) := by
          intro e
          rw [Nat.pow_succ', ← Nat.mul_assoc, Nat.mul_comm 2]
        -- the first doubling is needed, so every exponent that is enough is a successor
        have hnext : ∀ e : ℕ, needed ≤ (capacity * 2 ^ e : ℕ) → ∃ d, e = d + 1 := by
          intro e he
          cases e with
          | zero =>
              rw [Nat.pow_zero, Nat.mul_one] at he
              exact (hneeded he).elim
          | succ d => exact ⟨d, rfl⟩
        rw [doubled, if_neg hneeded]
        by_cases hdouble : 2 * capacity < 2 ^ 31
        · rw [nat_ok hdouble, ok_bind]
          have hshifts' : 2 ^ 31 ≤ 2 * capacity * 2 ^ shifts := by
            rw [hsucc]
            exact hshifts
          rcases ih hdouble hshifts' with ⟨e, hrun, hle, hlt', hleast⟩ | ⟨hrun, hnone⟩
          · rw [hsucc] at hrun hle hlt' hleast
            refine .inl ⟨e + 1, hrun, hle, hlt', ?_⟩
            intro e' he'
            obtain ⟨d, rfl⟩ := hnext e' he'
            have hd := hleast d
            rw [hsucc] at hd
            exact hd he'
          · refine .inr ⟨hrun, ?_⟩
            intro e he hle
            obtain ⟨d, rfl⟩ := hnext e hle
            have hd := hnone d
            rw [hsucc] at hd
            exact hd he hle
        · rw [nat_overflow hdouble]
          refine .inr ⟨rfl, ?_⟩
          intro e he hle
          obtain ⟨d, rfl⟩ := hnext e hle
          have hpow : 0 < 2 ^ d := Nat.two_pow_pos d
          rw [← hsucc] at he
          have hge : 2 * capacity ≤ 2 * capacity * 2 ^ d := Nat.le_mul_of_pos_right _ hpow
          omega

/-- The array has grown and kept its items. -/
structure Grown (n : ℤ) (arr arr' : ArrayT) : Prop where
  size_eq : arr'.size = arr.size
  room : arr.length + n ≤ arr'.capacity
  least : ∀ e : ℕ, arr.length + n ≤ (arr.capacity * 2 ^ e : ℕ) →
    arr'.capacity ≤ arr.capacity * 2 ^ e
  reached : ∃ e, arr'.capacity = arr.capacity * 2 ^ e

theorem Holds.resize_cases (h : Holds l arr) (u : Unspecified) (n : ℕ) :
    (Grows arr n ∧ ∃ arr', resize u arr n = .ok arr' ∧ Holds l arr' ∧ Grown n arr arr') ∨
    (Fits arr n ∧ Refused arr n ∧ resize u arr n = .error .fatal) ∨
    ¬ Fits arr n ∧ resize u arr n = .error .overflow := by
  have hle := h.length_le
  have hlen := h.length_eq
  have hge := h.capacity_ge
  unfold resize
  by_cases hint : arr.length + n < 2 ^ 31
  · rw [int_ok (by omega) hint, ok_bind]
    by_cases hneeded : arr.length + n ≤ arr.capacity
    · rw [if_pos hneeded]
      have hone : arr.capacity * 2 ^ 0 = arr.capacity := by rw [Nat.pow_zero, Nat.mul_one]
      refine .inl ⟨⟨⟨0, ?_⟩, ?_⟩, arr, rfl, h, ⟨rfl, hneeded, ?_, 0, hone.symm⟩⟩
      · rw [hone]
        exact ⟨hneeded, h.capacity_lt, h.bytes_lt⟩
      · rintro ⟨-, hfull⟩
        omega
      · intro e _
        exact Nat.le_mul_of_pos_right arr.capacity (Nat.two_pow_pos e)
    · rw [if_neg hneeded]
      have hshifts : 2 ^ 31 ≤ arr.capacity * 2 ^ 32 := by omega
      rcases doubled_cases 32 (arr.length + n) h.capacity_lt hshifts with
        ⟨e, hrun, hroom, hlt, hleast⟩ | ⟨hrun, hnone⟩
      · rw [hrun, ok_bind]
        by_cases hbytes : arr.size * (arr.capacity * 2 ^ e) < 2 ^ 31
        · rw [nat_ok hbytes, ok_bind]
          have hfits : Fits arr n := ⟨e, hroom, hlt, hbytes⟩
          have hpos : 0 < arr.capacity * 2 ^ e := by omega
          rcases Nat.eq_zero_or_pos arr.size with hsize | hsize
          · have hzero : arr.size * (arr.capacity * 2 ^ e) = 0 := by rw [hsize, Nat.zero_mul]
            refine .inr (.inl ⟨hfits, ⟨hsize, by omega⟩, ?_⟩)
            rw [hzero]
            rfl
          rw [memRealloc_ok _ _ (Nat.mul_pos hsize hpos), ok_bind]
          refine .inl ⟨hfits.grows hsize, _, rfl, ?_, rfl, hroom, hleast, e, rfl⟩
          have hgrow : arr.capacity ≤ arr.capacity * 2 ^ e :=
            Nat.le_mul_of_pos_right arr.capacity (Nat.two_pow_pos e)
          obtain ⟨d, hd⟩ := h.capacity_pow
          have hpow : arr.capacity * 2 ^ e = 2 ^ (d + e) := by rw [hd, Nat.pow_add]
          refine ⟨⟨Block.length_grow _ _ _, Nat.le_trans hge hgrow, ⟨d + e, hpow⟩, hlt, hbytes⟩,
            hlen, Nat.le_trans hle hgrow, h.sizes, ?_⟩
          apply Block.prefix_grow h.items_start
          rw [h.length_buffer]
          exact Nat.mul_le_mul_left arr.size hgrow
        · rw [nat_overflow hbytes]
          refine .inr (.inr ⟨?_, rfl⟩)
          rintro ⟨e', hneed, -, hbytes'⟩
          have hmul := Nat.mul_le_mul_left arr.size (hleast e' hneed)
          omega
      · rw [hrun, error_bind]
        refine .inr (.inr ⟨?_, rfl⟩)
        rintro ⟨e, hneed, hlt, -⟩
        exact hnone e hlt hneed
  · have hover : int (arr.length + n) = .error .overflow := if_neg (by omega)
    rw [hover, error_bind]
    refine .inr (.inr ⟨?_, rfl⟩)
    rintro ⟨e, hneed, hlt, -⟩
    omega

theorem Holds.resize (h : Holds l arr) (u : Unspecified) {n : ℕ} (hgrows : Grows arr n) :
    ∃ arr', ArrayT.resize u arr n = .ok arr' ∧ Holds l arr' ∧ Grown n arr arr' := by
  rcases h.resize_cases u n with ⟨-, hrun⟩ | ⟨-, hrefused, -⟩ | ⟨hnot, -⟩
  · exact hrun
  · exact (hgrows.2 hrefused).elim
  · exact (hnot hgrows.1).elim

theorem Holds.resize_fatal (h : Holds l arr) (u : Unspecified) {n : ℕ} (hfits : Fits arr n)
    (hrefused : Refused arr n) : ArrayT.resize u arr n = .error .fatal := by
  rcases h.resize_cases u n with ⟨hgrows, -⟩ | ⟨-, -, hrun⟩ | ⟨hnot, -⟩
  · exact (hgrows.2 hrefused).elim
  · exact hrun
  · exact (hnot hfits).elim

theorem Holds.resize_overflow (h : Holds l arr) (u : Unspecified) {n : ℕ} (hnot : ¬ Fits arr n) :
    ArrayT.resize u arr n = .error .overflow := by
  rcases h.resize_cases u n with ⟨hgrows, -⟩ | ⟨hfits, -, -⟩ | ⟨-, hrun⟩
  · exact (hnot hgrows.1).elim
  · exact (hnot hfits).elim
  · exact hrun

theorem Holds.resize_error (h : Holds l arr) (u : Unspecified) {n : ℕ} (hnot : ¬ Grows arr n) :
    ∃ e, ArrayT.resize u arr n = .error e := by
  rcases h.resize_cases u n with ⟨hgrows, -⟩ | ⟨-, -, hrun⟩ | ⟨-, hrun⟩
  · exact (hnot hgrows).elim
  · exact ⟨_, hrun⟩
  · exact ⟨_, hrun⟩

/-! ## Indices -/

/-- The place that an index to write at stands for. -/
def writePosition (arr : ArrayT) (index : ℤ) : ℤ :=
  if index < 0 then arr.length + index + 1 else index

def readPosition (arr : ArrayT) (index : ℤ) : ℤ :=
  if index < 0 then arr.length + index else index

theorem Holds.normalizeWriteIndex (h : Holds l arr) {index : ℤ} (h₀ : -2 ^ 31 ≤ index)
    (hle : index ≤ arr.length) :
    ArrayT.normalizeWriteIndex arr index = .ok (writePosition arr index) := by
  have hlen := h.length_eq
  have hcap := h.length_le
  have hlt := h.capacity_lt
  unfold ArrayT.normalizeWriteIndex writePosition
  by_cases hneg : index < 0
  · rw [if_pos hneg, if_pos hneg, Int.add_assoc]
    by_cases hone : index = -1
    · rw [if_pos hone, hone]
      simp
    · rw [if_neg hone, int_ok (by omega) (by omega)]
  · rw [if_neg hneg, if_neg hneg, if_pos ⟨by omega, hle⟩]

theorem normalizeWriteIndex_error {index : ℤ} (hpos : 0 ≤ arr.length) (hgt : arr.length < index) :
    ArrayT.normalizeWriteIndex arr index = .error .indexError := by
  rw [ArrayT.normalizeWriteIndex, if_neg (by omega), if_neg (by omega)]

theorem Holds.normalizeReadIndex (h : Holds l arr) {index : ℤ} (h₀ : -2 ^ 31 ≤ index)
    (hle : index ≤ arr.length) :
    ArrayT.normalizeReadIndex arr index = .ok (readPosition arr index) := by
  have hlen := h.length_eq
  have hcap := h.length_le
  have hlt := h.capacity_lt
  unfold ArrayT.normalizeReadIndex readPosition
  by_cases hneg : index < 0
  · rw [if_pos hneg, if_pos hneg]
    by_cases hone : index = -1
    · rw [if_pos hone, hone, ← Int.sub_eq_add_neg, int_ok (by omega) (by omega)]
    · rw [if_neg hone, int_ok (by omega) (by omega)]
  · rw [if_neg hneg, if_neg hneg, if_pos ⟨by omega, hle⟩]

theorem Holds.normalize_inside (h : Holds l arr) {i : ℕ} (hi : i < l.length) :
    ArrayT.normalizeReadIndex arr i = .ok (i : ℤ) := by
  have hlen := h.length_eq
  rw [h.normalizeReadIndex (by omega) (by omega), readPosition, if_neg (by omega)]

theorem normalizeReadIndex_error {index : ℤ} (hpos : 0 ≤ arr.length) (hgt : arr.length < index) :
    ArrayT.normalizeReadIndex arr index = .error .indexError := by
  rw [ArrayT.normalizeReadIndex, if_neg (by omega), if_neg (by omega)]

/-! ## Reading back -/

theorem Holds.indexArrayData (h : Holds l arr) {index : ℤ} {i : ℕ}
    (hidx : ArrayT.normalizeReadIndex arr index = .ok (i : ℤ)) (hi : i < l.length) :
    ArrayT.indexArrayData arr index = .ok (some (i : ℤ)) := by
  have hle := h.length_le
  have hpos : 0 < arr.lenArray := by
    rw [lenArray, h.length_eq]
    omega
  rw [ArrayT.indexArrayData, if_pos hpos, hidx, ok_bind, h.byteOffset (by omega), ok_bind]

theorem Holds.iterateArrayData (h : Holds l arr) {i : ℕ} (hi : i < l.length) :
    ArrayT.iterateArrayData arr i = .ok (some (i : ℤ), ((i + 1 : ℕ) : ℤ)) := by
  have hle := h.length_le
  have hlen := h.length_eq
  have hcap := h.capacity_lt
  have hnorm : ArrayT.normalizeReadIndex arr i = .ok (readPosition arr i) :=
    h.normalizeReadIndex (by omega) (by omega)
  rw [readPosition, if_neg (by omega)] at hnorm
  have hnext : int ((i : ℤ) + 1) = .ok ((i + 1 : ℕ) : ℤ) := int_ok (by omega) (by omega)
  rw [ArrayT.iterateArrayData, if_pos (by omega), h.indexArrayData hnorm hi, ok_bind, hnext,
    ok_bind]

theorem Holds.iterateArrayData_end (h : Holds l arr) :
    ArrayT.iterateArrayData arr l.length = .ok (none, (l.length : ℤ)) := by
  have hlen := h.length_eq
  rw [ArrayT.iterateArrayData, if_neg (by omega)]

end ArrayT

end SimpleVm
