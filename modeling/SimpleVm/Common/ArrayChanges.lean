import SimpleVm.Common.ArrayItems

/-!
# Changing an array

Every function that changes an array moves blocks of bytes. With its indices
in range and room for the new items it changes the list that the array holds.
-/

namespace SimpleVm

namespace ArrayT

variable {u : Unspecified} {arr : ArrayT} {l : List (List UInt8)}

/-! ## Inserting -/

theorem Formed.withBuffer (h : Formed arr) {buffer : List UInt8}
    (hlen : buffer.length = arr.buffer.length) : Formed { arr with buffer := buffer } :=
  ⟨hlen.trans h.length_buffer, h.capacity_ge, h.capacity_pow, h.capacity_lt, h.bytes_lt⟩

/-- The block where the items from `i` on have moved up by `k` positions. -/
def gapped (arr : ArrayT) (l : List (List UInt8)) (i k : ℕ) : List UInt8 :=
  Block.overwrite arr.buffer (arr.size * (i + k)) (l.drop i).flatten

theorem Holds.gap_inside (h : Holds l arr) {i k : ℕ} (hi : i ≤ l.length)
    (hroom : l.length + k ≤ arr.capacity) :
    arr.size * (i + k) + (l.drop i).flatten.length ≤ arr.buffer.length := by
  rw [h.length_drop, h.length_buffer, ← Nat.mul_add]
  exact Nat.mul_le_mul_left arr.size (by omega)

theorem Holds.length_gapped (h : Holds l arr) {i k : ℕ} (hi : i ≤ l.length)
    (hroom : l.length + k ≤ arr.capacity) : (gapped arr l i k).length = arr.buffer.length :=
  Block.length_overwrite (h.gap_inside hi hroom)

theorem Holds.openGap (h : Holds l arr) (u : Unspecified) {i k : ℕ} (hi : i ≤ l.length)
    (hroom : l.length + k ≤ arr.capacity) :
    copyWithin u arr ((i + k : ℕ) : ℤ) i ((arr.size * (l.length - i) : ℕ) : ℤ) =
      .ok { arr with buffer := gapped arr l i k } := by
  have hle := h.length_le
  obtain ⟨rest, hbuffer, -⟩ := h.exists_rest i
  have hinside : arr.size * i + arr.size * (l.length - i) ≤ arr.buffer.length := by
    rw [h.length_buffer, ← Nat.mul_add]
    exact Nat.mul_le_mul_left arr.size (by omega)
  have hbytes : (arr.buffer.drop (arr.size * i)).take (arr.size * (l.length - i)) =
      (l.drop i).flatten := by
    rw [hbuffer, List.append_assoc, ← h.length_take hi, List.drop_left, ← h.length_drop,
      List.take_left]
  rw [copyWithin, h.byteOffset (by omega), ok_bind, h.byteOffset (by omega), ok_bind,
    load_inside hinside, ok_bind, hbytes, store_inside (h.gap_inside hi hroom), gapped]

/-- New items in the gap make the longer list. -/
theorem Holds.fillGap (h : Holds l arr) {i : ℕ} (hi : i ≤ l.length) {new : List (List UInt8)}
    (hnew : ∀ x ∈ new, x.length = arr.size) (hroom : l.length + new.length ≤ arr.capacity) :
    Holds (l.take i ++ new ++ l.drop i)
      { arr with
        buffer := Block.overwrite (gapped arr l i new.length) (arr.size * i) new.flatten,
        length := arr.length + new.length, isSorted := false } := by
  have hgapped := h.length_gapped hi hroom
  obtain ⟨rest, hbuffer, hrest⟩ := h.exists_rest i
  have hnewlen := length_flatten hnew
  have hinside : arr.size * i + new.flatten.length ≤ (gapped arr l i new.length).length := by
    rw [hgapped, h.length_buffer, hnewlen, ← Nat.mul_add]
    exact Nat.mul_le_mul_left arr.size (by omega)
  have hfit : new.flatten.length ≤ rest.length := by
    rw [hnewlen, hrest]
    exact Nat.mul_le_mul_left arr.size (by omega)
  have hsplice : Block.overwrite (gapped arr l i new.length) (arr.size * i) new.flatten =
      (l.take i ++ new ++ l.drop i).flatten ++ rest.drop new.flatten.length := by
    rw [gapped, Nat.mul_add, ← hnewlen, ← h.length_take hi, hbuffer,
      Block.overwrite_splice _ _ _ hfit, List.flatten_append, List.flatten_append]
  refine ⟨⟨?_, h.capacity_ge, h.capacity_pow, h.capacity_lt, h.bytes_lt⟩, ?_, ?_, ?_, ?_⟩
  · exact (Block.length_overwrite hinside).trans (hgapped.trans h.length_buffer)
  · have hlen := h.length_eq
    simp only [List.length_append, List.length_take, List.length_drop]
    omega
  · simp only [List.length_append, List.length_take, List.length_drop]
    omega
  · intro x hx
    rcases List.mem_append.mp hx with hx | hx
    · rcases List.mem_append.mp hx with hx | hx
      · exact h.sizes x (List.mem_of_mem_take hx)
      · exact hnew x hx
    · exact h.sizes x (List.mem_of_mem_drop hx)
  · rw [hsplice]
    exact List.prefix_append _ _

theorem Holds.int_position (h : Holds l arr) {i : ℕ} (hi : i ≤ arr.capacity) :
    int i = .ok (i : ℤ) := by
  have hlt := h.capacity_lt
  exact int_natCast (by omega)

theorem Holds.int_length (h : Holds l arr) {k : ℕ} (hroom : l.length + k ≤ arr.capacity) :
    int (arr.length + k) = .ok (arr.length + k) := by
  have hlt := h.capacity_lt
  have hlen := h.length_eq
  exact int_ok (by omega) (by omega)

/-- After growing there is room, and the length that is to come is an `int`. -/
theorem Holds.resize_room (h : Holds l arr) (u : Unspecified) {n : ℕ} (hgrows : Grows arr n) :
    ∃ arr₁, ArrayT.resize u arr n = .ok arr₁ ∧ Holds l arr₁ ∧ Grown n arr arr₁ ∧
      l.length + n ≤ arr₁.capacity ∧ int (arr₁.length + n) = .ok (arr₁.length + n) := by
  obtain ⟨arr₁, hrun, h₁, hgrown⟩ := h.resize u hgrows
  have hroom : l.length + n ≤ arr₁.capacity := by
    have hroom := hgrown.room
    have hlen := h.length_eq
    omega
  exact ⟨arr₁, hrun, h₁, hgrown, hroom, h₁.int_length hroom⟩

theorem Holds.resize_one (h : Holds l arr) (u : Unspecified) (hgrows : Grows arr 1) :
    ∃ arr₁, ArrayT.resize u arr 1 = .ok arr₁ ∧ Holds l arr₁ ∧ Grown 1 arr arr₁ ∧
      l.length + 1 ≤ arr₁.capacity ∧ int (arr₁.length + 1) = .ok (arr₁.length + 1) :=
  h.resize_room u (n := 1) hgrows

theorem Holds.insertArrayData (h : Holds l arr) (u : Unspecified) {index : ℤ} {i : ℕ}
    (hidx : ArrayT.normalizeWriteIndex arr index = .ok (i : ℤ)) (hi : i ≤ l.length)
    (hgrows : Grows arr 1) (data : ℕ → UInt8) :
    ∃ arr', ArrayT.insertArrayData u arr data index = .ok arr' ∧
      Holds (l.take i ++ [itemAt arr.size data] ++ l.drop i) arr' ∧ arr'.size = arr.size := by
  obtain ⟨arr₁, hresize, h₁, hgrown, hroom, hlength⟩ := h.resize_one u hgrows
  have hsize := hgrown.size_eq
  have hitem : ∀ x ∈ [itemAt arr.size data], x.length = arr₁.size := by
    intro x hx
    rw [List.mem_singleton.mp hx, length_itemAt, hsize]
  have hgap := h₁.toFormed.withBuffer (h₁.length_gapped hi hroom)
  have hcap : i < arr₁.capacity := by omega
  have hwrite := hgap.writeItem hcap (length_itemAt arr₁.size data)
  have hnext : int ((i : ℤ) + 1) = .ok ((i + 1 : ℕ) : ℤ) :=
    h₁.int_position (i := i + 1) (by omega)
  refine ⟨_, ?_, h₁.fillGap hi hitem hroom, hsize⟩
  rw [ArrayT.insertArrayData, hidx, ok_bind, hresize, ok_bind, hnext, ok_bind, h₁.tailLength hi,
    ok_bind, h₁.openGap u hi hroom, ok_bind, hwrite, ok_bind, hlength, ok_bind, hsize,
    List.flatten_singleton]
  rfl

theorem gapped_end (arr : ArrayT) (l : List (List UInt8)) (k : ℕ) :
    gapped arr l l.length k = arr.buffer := by
  rw [gapped, List.drop_length]
  simp [Block.overwrite]

theorem Holds.appendArrayData (h : Holds l arr) (u : Unspecified) (hgrows : Grows arr 1)
    (data : ℕ → UInt8) :
    ∃ arr', ArrayT.appendArrayData u arr data = .ok arr' ∧
      Holds (l ++ [itemAt arr.size data]) arr' ∧ arr'.size = arr.size := by
  obtain ⟨arr₁, hresize, h₁, hgrown, hroom, hlength⟩ := h.resize_one u hgrows
  have hsize := hgrown.size_eq
  have hitem : ∀ x ∈ [itemAt arr.size data], x.length = arr₁.size := by
    intro x hx
    rw [List.mem_singleton.mp hx, length_itemAt, hsize]
  have hheld := h₁.fillGap le_rfl hitem hroom
  rw [gapped_end, List.take_length, List.drop_length, List.append_nil, List.flatten_singleton]
    at hheld
  have hwrite := h₁.writeItem hroom (length_itemAt arr₁.size data)
  refine ⟨_, ?_, hheld, hsize⟩
  rw [ArrayT.appendArrayData, hresize, ok_bind, h₁.length_eq, hwrite, ok_bind, ← h₁.length_eq,
    hlength, ok_bind, hsize]
  rfl

/-! ## Inserting other arrays -/

theorem byteOffset_zero (arr : ArrayT) : byteOffset arr 0 = .ok 0 := by
  rw [byteOffset, Int.mul_zero, int_ok (by omega) (by omega)]

theorem Holds.tailLength_zero (h : Holds l arr) :
    ArrayT.tailLength arr 0 = .ok ((arr.size * l.length : ℕ) : ℤ) :=
  h.tailLength (Nat.zero_le l.length)

theorem Holds.load_all (h : Holds l arr) (u : Unspecified) :
    load u arr 0 ((arr.size * l.length : ℕ) : ℤ) = .ok l.flatten := by
  obtain ⟨rest, hrest⟩ := h.items_start
  have hinside : 0 + arr.size * l.length ≤ arr.buffer.length := by
    rw [h.length_buffer, Nat.zero_add]
    exact Nat.mul_le_mul_left arr.size h.length_le
  have hload := load_inside (u := u) hinside
  rw [← hrest, List.drop_zero, ← length_flatten h.sizes, List.take_left] at hload
  rw [← length_flatten h.sizes]
  exact hload

theorem Holds.insertArray {dest src : ArrayT} {new : List (List UInt8)} (h : Holds l dest)
    (hsrc : Holds new src) (hsize : src.size = dest.size) (u : Unspecified) {index : ℤ} {i : ℕ}
    (hidx : ArrayT.normalizeWriteIndex dest index = .ok (i : ℤ)) (hi : i ≤ l.length)
    (hgrows : Grows dest new.length) :
    ∃ arr', ArrayT.insertArray u dest (fun _ => src) index = .ok arr' ∧
      Holds (l.take i ++ new ++ l.drop i) arr' ∧ arr'.size = dest.size := by
  obtain ⟨dest₁, hresize, h₁, hgrown, hroom, hlength⟩ := h.resize_room u hgrows
  have hsize₁ := hgrown.size_eq
  have hnew : ∀ x ∈ new, x.length = dest₁.size := by
    intro x hx
    rw [hsrc.sizes x hx, hsize, hsize₁]
  have hgap := h₁.toFormed.withBuffer (h₁.length_gapped hi hroom)
  have hoff := hgap.byteOffset (i := i) (by change i ≤ dest₁.capacity; omega)
  have hinside : dest₁.size * i + new.flatten.length ≤ (gapped dest₁ l i new.length).length := by
    rw [h₁.length_gapped hi hroom, h₁.length_buffer, length_flatten hnew, ← Nat.mul_add]
    exact Nat.mul_le_mul_left dest₁.size (by omega)
  have hbehind : int ((i : ℤ) + src.length) = .ok ((i + new.length : ℕ) : ℤ) := by
    have hpos := h₁.int_position (i := i + new.length) (by omega)
    rw [hsrc.length_eq]
    exact hpos
  rw [← hsrc.length_eq] at hresize hlength
  refine ⟨_, ?_, h₁.fillGap hi hnew hroom, hsize₁⟩
  simp only [ArrayT.insertArray, hidx, hresize, ok_bind]
  rw [hbehind, ok_bind, h₁.tailLength hi, ok_bind, h₁.openGap u hi hroom, ok_bind, hoff, ok_bind,
    byteOffset_zero, ok_bind, hsrc.tailLength_zero, ok_bind, hsrc.load_all u, ok_bind,
    store_inside hinside, ok_bind, hlength, ok_bind, hsrc.length_eq]

theorem Holds.appendArray {dest src : ArrayT} {new : List (List UInt8)} (h : Holds l dest)
    (hsrc : Holds new src) (hsize : src.size = dest.size) (u : Unspecified)
    (hgrows : Grows dest new.length) :
    ∃ arr', ArrayT.appendArray u dest (fun _ => src) = .ok arr' ∧ Holds (l ++ new) arr' ∧
      arr'.size = dest.size := by
  obtain ⟨dest₁, hresize, h₁, hgrown, hroom, hlength⟩ := h.resize_room u hgrows
  have hsize₁ := hgrown.size_eq
  have hnew : ∀ x ∈ new, x.length = dest₁.size := by
    intro x hx
    rw [hsrc.sizes x hx, hsize, hsize₁]
  have hheld := h₁.fillGap le_rfl hnew hroom
  rw [gapped_end, List.take_length, List.drop_length, List.append_nil] at hheld
  have hinside : dest₁.size * l.length + new.flatten.length ≤ dest₁.buffer.length := by
    rw [h₁.length_buffer, length_flatten hnew, ← Nat.mul_add]
    exact Nat.mul_le_mul_left dest₁.size hroom
  have hoff : byteOffset dest₁ dest₁.length = .ok ((dest₁.size * l.length : ℕ) : ℤ) := by
    rw [h₁.length_eq, h₁.toFormed.byteOffset h₁.length_le]
  rw [← hsrc.length_eq] at hresize hlength
  refine ⟨_, ?_, hheld, hsize₁⟩
  rw [ArrayT.appendArray, hresize, ok_bind, hoff, ok_bind, byteOffset_zero, ok_bind,
    hsrc.tailLength_zero, ok_bind, hsrc.load_all u, ok_bind, store_inside hinside, ok_bind, hlength,
    ok_bind, hsrc.length_eq]

/-! ## Deleting -/

/-- The bytes that deleting item `i` moves: the items behind it, and one more item. -/
theorem Holds.load_behind (h : Holds l arr) (u : Unspecified) {i : ℕ} (hi : i < l.length)
    (hpast : u.past.isSome ∨ l.length < arr.capacity) :
    ∃ junk, junk.length = arr.size ∧
      load u arr ((arr.size * (i + 1) : ℕ) : ℤ) ((arr.size * (l.length - i) : ℕ) : ℤ) =
        .ok ((l.drop (i + 1)).flatten ++ junk) := by
  obtain ⟨rest, hbuffer, hrest⟩ := h.exists_rest (i + 1)
  have hoff : (l.take (i + 1)).flatten.length = arr.size * (i + 1) := h.length_take hi
  have hmoved : arr.size * (l.length - i) = (l.drop (i + 1)).flatten.length + arr.size := by
    rw [h.length_drop, ← Nat.mul_succ]
    congr 1
    omega
  have hend : arr.size * (i + 1) + arr.size * (l.length - i) = arr.size * l.length + arr.size := by
    rw [← Nat.mul_add, ← Nat.mul_succ]
    congr 1
    omega
  have hlen := h.length_buffer
  rw [Nat.mul_sub] at hrest
  by_cases hinside : arr.size * (i + 1) + arr.size * (l.length - i) ≤ arr.buffer.length
  · refine ⟨rest.take arr.size, ?_, ?_⟩
    · rw [List.length_take]
      omega
    · rw [load_inside hinside, hbuffer, List.append_assoc, ← hoff, List.drop_left, hmoved,
        List.take_length_add_append]
  · have hfull : arr.capacity = l.length := by
      by_contra hne
      have hlt : l.length + 1 ≤ arr.capacity := by
        have hle := h.length_le
        omega
      have hmul := Nat.mul_le_mul_left arr.size hlt
      rw [Nat.mul_succ] at hmul
      omega
    rw [hfull] at hlen
    have hpos : arr.size ≠ 0 := by
      intro hzero
      rw [hzero] at hinside hend
      omega
    obtain ⟨past, hsome⟩ : ∃ past, u.past = some past := by
      rcases hpast with hpast | hlt
      · exact Option.isSome_iff_exists.mp hpast
      · omega
    obtain ⟨junk, hgrow, hjunk⟩ := Block.exists_grow_eq (past arr) (Nat.le_of_not_le hinside)
    refine ⟨rest ++ junk, ?_, ?_⟩
    · rw [List.length_append, hrest, hjunk, hfull]
      omega
    · unfold load
      rw [if_neg (by omega), if_neg (by omega), hsome, Int.toNat_natCast, Int.toNat_natCast,
        Block.load?, if_neg hinside]
      have hnat : ((arr.size * (i + 1) : ℕ) + (arr.size * (l.length - i) : ℕ) : ℤ).toNat =
          arr.size * (i + 1) + arr.size * (l.length - i) := by omega
      dsimp only
      rw [hnat, hgrow, hbuffer, List.append_assoc, List.append_assoc, ← hoff, List.drop_left]

theorem Holds.deleteArrayData (h : Holds l arr) (u : Unspecified) {index : ℤ} {i : ℕ}
    (hidx : ArrayT.normalizeWriteIndex arr index = .ok (i : ℤ)) (hi : i < l.length)
    (hpast : u.past.isSome ∨ l.length < arr.capacity) :
    ∃ arr', ArrayT.deleteArrayData u arr index = .ok arr' ∧ Holds (l.eraseIdx i) arr' ∧
      arr'.size = arr.size := by
  have hle := h.length_le
  obtain ⟨junk, hjunk, hload⟩ := h.load_behind u hi hpast
  obtain ⟨rest, hbuffer, hrest⟩ := h.exists_rest (i + 1)
  have hpre : (l.take i).flatten.length = arr.size * i := h.length_take (Nat.le_of_lt hi)
  have hsplit : arr.buffer = (l.take i).flatten ++ l[i] ++ (l.drop (i + 1)).flatten ++ rest := by
    rw [hbuffer, List.take_succ_eq_append_getElem hi, List.flatten_append, List.flatten_singleton]
  have herase : Block.overwrite arr.buffer (arr.size * i) ((l.drop (i + 1)).flatten ++ junk) =
      (l.eraseIdx i).flatten ++ junk ++ rest := by
    have hitem : junk.length = l[i].length := hjunk.trans (h.sizes _ (List.getElem_mem hi)).symm
    rw [hsplit, ← hpre, Block.overwrite_erase _ _ _ hitem, List.eraseIdx_eq_take_drop_succ,
      List.flatten_append]
  have hlength : (l.eraseIdx i).length = l.length - 1 := List.length_eraseIdx_of_lt hi
  have hinside : arr.size * i + ((l.drop (i + 1)).flatten ++ junk).length ≤ arr.buffer.length := by
    rw [List.length_append, hjunk, h.length_drop, h.length_buffer, ← Nat.mul_succ, ← Nat.mul_add]
    exact Nat.mul_le_mul_left arr.size (by omega)
  have hheld : Holds (l.eraseIdx i)
      { arr with
        buffer := Block.overwrite arr.buffer (arr.size * i) ((l.drop (i + 1)).flatten ++ junk),
        length := arr.length - 1, isSorted := false } := by
    refine ⟨⟨?_, h.capacity_ge, h.capacity_pow, h.capacity_lt, h.bytes_lt⟩, ?_, ?_, ?_, ?_⟩
    · exact (Block.length_overwrite hinside).trans h.length_buffer
    · have hlen := h.length_eq
      dsimp only
      omega
    · dsimp only
      omega
    · intro x hx
      exact h.sizes x (List.mem_of_mem_eraseIdx hx)
    · rw [herase, List.append_assoc]
      exact List.prefix_append _ _
  have hnext : int ((i : ℤ) + 1) = .ok ((i + 1 : ℕ) : ℤ) :=
    h.int_position (i := i + 1) (by omega)
  have hshorter : int (arr.length - 1) = .ok (arr.length - 1) := by
    have hlt := h.capacity_lt
    have hlen := h.length_eq
    exact int_ok (by omega) (by omega)
  refine ⟨_, ?_, hheld, rfl⟩
  rw [ArrayT.deleteArrayData, hidx, ok_bind, hnext, ok_bind, h.tailLength (Nat.le_of_lt hi),
    ok_bind, copyWithin, h.toFormed.byteOffset (by omega), ok_bind,
    h.toFormed.byteOffset (by omega), ok_bind,
    hload, ok_bind, store_inside hinside, ok_bind, hshorter, ok_bind]

/-! ## Changing items in place -/

theorem Holds.setItem (h : Holds l arr) {i : ℕ} (hi : i < l.length) {item : List UInt8}
    (hitem : item.length = arr.size) :
    Holds (l.set i item)
      { arr with buffer := Block.overwrite arr.buffer (arr.size * i) item } := by
  have hle := h.length_le
  obtain ⟨rest, hbuffer, -⟩ := h.exists_rest (i + 1)
  have hpre : (l.take i).flatten.length = arr.size * i := h.length_take (Nat.le_of_lt hi)
  have hsplit : arr.buffer =
      (l.take i).flatten ++ l[i] ++ ((l.drop (i + 1)).flatten ++ rest) := by
    rw [hbuffer, List.take_succ_eq_append_getElem hi, List.flatten_append, List.flatten_singleton,
      List.append_assoc]
  have hold : l[i].length = item.length := (h.sizes _ (List.getElem_mem hi)).trans hitem.symm
  have hwritten : Block.overwrite arr.buffer (arr.size * i) item =
      (l.set i item).flatten ++ rest := by
    rw [hsplit, ← hpre, Block.overwrite_append _ _ hold, List.set_eq_take_append_cons_drop,
      if_pos hi, List.flatten_append, List.flatten_cons]
    simp only [List.append_assoc]
  have hinside : arr.size * i + item.length ≤ arr.buffer.length := by
    rw [h.length_buffer, hitem, ← Nat.mul_succ]
    exact Nat.mul_le_mul_left arr.size (by omega)
  refine ⟨⟨?_, h.capacity_ge, h.capacity_pow, h.capacity_lt, h.bytes_lt⟩, ?_, ?_, ?_, ?_⟩
  · exact (Block.length_overwrite hinside).trans h.length_buffer
  · rw [List.length_set]
    exact h.length_eq
  · rw [List.length_set]
    exact hle
  · intro x hx
    rcases List.mem_or_eq_of_mem_set hx with hx | rfl
    · exact h.sizes x hx
    · exact hitem
  · rw [hwritten]
    exact List.prefix_append _ _

theorem Holds.withSorted (h : Holds l arr) (b : Bool) : Holds l { arr with isSorted := b } :=
  ⟨⟨h.length_buffer, h.capacity_ge, h.capacity_pow, h.capacity_lt, h.bytes_lt⟩, h.length_eq,
    h.length_le, h.sizes,
    h.items_start⟩

/-- The last item is no longer counted, and its bytes stay. -/
theorem Holds.dropLast {x : List UInt8} (h : Holds (l ++ [x]) arr) :
    Holds l { arr with length := arr.length - 1 } := by
  have hlen := h.length_eq
  have hle := h.length_le
  rw [List.length_append, List.length_singleton] at hlen hle
  refine ⟨⟨h.length_buffer, h.capacity_ge, h.capacity_pow, h.capacity_lt, h.bytes_lt⟩, ?_, ?_, ?_,
    ?_⟩
  · dsimp only
    omega
  · dsimp only
    omega
  · intro y hy
    exact h.sizes y (List.mem_append_left _ hy)
  · have hstart := h.items_start
    rw [List.flatten_append] at hstart
    exact (List.prefix_append _ _).trans hstart

theorem Holds.copyItem (h : Holds l arr) (u : Unspecified) {i j : ℕ} (hi : i < l.length)
    (hj : j < l.length) :
    copyWithin u arr i j arr.size =
      .ok { arr with buffer := Block.overwrite arr.buffer (arr.size * i) l[j] } := by
  have hle := h.length_le
  have hitem : l[j].length = arr.size := h.sizes _ (List.getElem_mem hj)
  have hinside : arr.size * i + l[j].length ≤ arr.buffer.length := by
    rw [h.length_buffer, hitem, ← Nat.mul_succ]
    exact Nat.mul_le_mul_left arr.size (by omega)
  rw [copyWithin, h.byteOffset (by omega), ok_bind, h.byteOffset (by omega), ok_bind,
    h.load_item u hj, ok_bind, store_inside hinside]

theorem Holds.swapArrayData (h : Holds l arr) (u : Unspecified) {idx1 idx2 : ℤ} {i j : ℕ}
    (hidx1 : ArrayT.normalizeReadIndex arr idx1 = .ok (i : ℤ))
    (hidx2 : ArrayT.normalizeReadIndex arr idx2 = .ok (j : ℤ)) (hi : i < l.length)
    (hj : j < l.length) :
    ∃ arr', ArrayT.swapArrayData u arr idx1 idx2 = .ok arr' ∧
      Holds ((l.set i l[j]).set j l[i]) arr' ∧ arr'.size = arr.size := by
  have hle := h.length_le
  have hsize : ∀ k (hk : k < l.length), l[k].length = arr.size := by
    intro k hk
    exact h.sizes _ (List.getElem_mem hk)
  have h₁ := h.setItem hi (hsize j hj)
  have hj₁ : j < (l.set i l[j]).length := by rwa [List.length_set]
  have hcap : j < arr.capacity := by omega
  have hwrite := h₁.toFormed.writeItem hcap (hsize i hi)
  refine ⟨_, ?_, (h₁.setItem hj₁ (hsize i hi)).withSorted false, rfl⟩
  rw [ArrayT.swapArrayData, hidx1, ok_bind, hidx2, ok_bind, h.readItem u hi, ok_bind,
    h.copyItem u hi hj, ok_bind, hwrite, ok_bind]

theorem Holds.clearArray (h : Holds l arr) (u : Unspecified) (hsize : 0 < arr.size) :
    ∃ arr', ArrayT.clearArray u arr = .ok arr' ∧ Holds [] arr' ∧ arr'.size = arr.size := by
  have hbytes : arr.size * 8 < 2 ^ 31 := h.mul_lt h.capacity_ge
  refine ⟨{ arr with
    length := 0, capacity := 8,
    buffer := Block.grow (u.fresh arr) arr.buffer (arr.size * 8), isSorted := false }, ?_, ?_, rfl⟩
  · rw [ArrayT.clearArray, nat_ok hbytes, ok_bind, memRealloc_ok _ _ (by omega), ok_bind]
  · have hcap : 8 < 2 ^ 31 := by omega
    refine ⟨⟨Block.length_grow _ _ _, le_rfl, ⟨3, rfl⟩, hcap, hbytes⟩, rfl, Nat.zero_le 8, ?_, ?_⟩
    · intro x hx
      cases hx
    · exact List.nil_prefix

theorem clearArray_fatal (u : Unspecified) (hsize : arr.size = 0) :
    clearArray u arr = .error .fatal := by
  rw [clearArray, hsize]
  rfl

theorem createArray_cases (size : ℕ) (comp : Option (List UInt8 → List UInt8 → ℤ)) :
    (∃ arr, createArray size comp = .ok arr ∧ Holds [] arr ∧ arr.size = size) ∨
      ¬ size * 8 < 2 ^ 31 ∧ createArray size comp = .error .overflow := by
  unfold createArray
  by_cases hsize : size < 2 ^ 31
  · rw [nat_ok hsize, ok_bind]
    by_cases hbytes : 8 * size < 2 ^ 31
    · rw [nat_ok hbytes, ok_bind]
      refine .inl ⟨_, rfl, ?_, rfl⟩
      have hcap : 8 < 2 ^ 31 := by omega
      refine ⟨⟨?_, le_rfl, ⟨3, rfl⟩, hcap, ?_⟩, rfl, Nat.zero_le 8, ?_, List.nil_prefix⟩
      · rw [List.length_replicate, Nat.mul_comm]
      · rwa [Nat.mul_comm] at hbytes
      · intro x hx
        cases hx
    · exact .inr ⟨by omega, by rw [nat_overflow hbytes, error_bind]⟩
  · exact .inr ⟨by omega, by rw [nat_overflow hsize, error_bind]⟩

end ArrayT

end SimpleVm
