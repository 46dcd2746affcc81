import SimpleVm.Common.ArrayChanges

/-!
# What a call on an array may touch

When a read past the block is an error, a call on an array with a length
between zero and its capacity returns, stops at an index that is too large or
for a block of no bytes, or fails by an access outside the block or by an
`int` that overflows. For the functions that take an index the lemmas here say
when it fails.
-/

namespace SimpleVm

namespace ArrayT

/-- The length of the array is one that its block has room for. -/
structure Sane (arr : ArrayT) : Prop extends Formed arr where
  length_nonneg : 0 ≤ arr.length
  length_le : arr.length ≤ arr.capacity

variable {u : Unspecified} {arr : ArrayT}

theorem Holds.sane {l : List (List UInt8)} (h : Holds l arr) : Sane arr := by
  refine ⟨h.toFormed, ?_, ?_⟩
  · rw [h.length_eq]
    exact Int.natCast_nonneg l.length
  · rw [h.length_eq]
    exact_mod_cast h.length_le

/-- The first `n` items of a block. -/
def chunks (size : ℕ) (block : List UInt8) : ℕ → List (List UInt8)
  | 0 => []
  | n + 1 => block.take size :: chunks size (block.drop size) n

theorem flatten_chunks (size n : ℕ) {block : List UInt8} :
    (chunks size block n).flatten = block.take (size * n) := by
  induction n generalizing block with
  | zero => rfl
  | succ n ih =>
      rw [chunks, List.flatten_cons, ih, Nat.mul_succ, Nat.add_comm, List.take_add]

theorem length_of_mem_chunks {size n : ℕ} {block : List UInt8} (h : size * n ≤ block.length) :
    ∀ x ∈ chunks size block n, x.length = size := by
  induction n generalizing block with
  | zero =>
      intro x hx
      cases hx
  | succ n ih =>
      rw [Nat.mul_succ] at h
      intro x hx
      rcases List.mem_cons.mp hx with rfl | hx
      · rw [List.length_take]
        omega
      · refine ih ?_ x hx
        rw [List.length_drop]
        omega

theorem length_chunks (size n : ℕ) {block : List UInt8} : (chunks size block n).length = n := by
  induction n generalizing block with
  | zero => rfl
  | succ n ih => rw [chunks, List.length_cons, ih]

theorem Sane.exists_holds (h : Sane arr) : ∃ l, Holds l arr := by
  obtain ⟨n, hn⟩ := Int.eq_ofNat_of_zero_le h.length_nonneg
  have hle : n ≤ arr.capacity := by
    have hle := h.length_le
    omega
  have hmul : arr.size * n ≤ arr.buffer.length := by
    rw [h.length_buffer]
    exact Nat.mul_le_mul_left arr.size hle
  refine ⟨chunks arr.size arr.buffer n, h.toFormed, ?_, ?_, length_of_mem_chunks hmul, ?_⟩
  · rw [length_chunks, hn]
  · rwa [length_chunks]
  · rw [flatten_chunks]
    exact List.take_prefix _ _

/-! ## Failing -/

def Fails {β : Type} (result : Except ArrayHalt β) : Prop :=
  result = .error .invalidAccess ∨ result = .error .overflow

variable {β γ : Type}

theorem Fails.bind {x : Except ArrayHalt β} (h : Fails x) (f : β → Except ArrayHalt γ) :
    Fails (x >>= f) := by
  rcases h with rfl | rfl
  · exact .inl rfl
  · exact .inr rfl

theorem Fails.ne_ok {x : Except ArrayHalt β} (h : Fails x) (b : β) : x ≠ .ok b := by
  rcases h with rfl | rfl
  · exact nofun
  · exact nofun

/-- An `int` overflows or goes on. -/
theorem fails_int_bind {n : ℤ} {f : ℤ → Except ArrayHalt β} (h : Fails (f n)) :
    Fails (int n >>= f) := by
  by_cases hrange : -2 ^ 31 ≤ n ∧ n < 2 ^ 31
  · rw [int, if_pos hrange, ok_bind]
    exact h
  · rw [int, if_neg hrange]
    exact .inr rfl

theorem fails_tailLength_bind {pos : ℤ} {f : ℤ → Except ArrayHalt β}
    (h : Fails (f ((arr.length - pos) * arr.size))) : Fails (tailLength arr pos >>= f) := by
  have hassoc : (tailLength arr pos >>= f) =
      (int (arr.length - pos) >>= fun n => int (n * arr.size) >>= f) := by
    rw [tailLength]
    cases int (arr.length - pos) <;> rfl
  rw [hassoc]
  exact fails_int_bind (fails_int_bind h)

section Strict

theorem load_outside {off n : ℤ} (hn : n ≠ 0) (hout : off < 0 ∨ n < 0 ∨ arr.buffer.length < off + n)
    (hstrict : u.past = none) : load u arr off n = .error .invalidAccess := by
  unfold load
  rw [if_neg hn]
  split
  · rfl
  · rename_i hpos
    have hload : Block.load? arr.buffer off.toNat n.toNat = none := if_neg (by omega)
    rw [hload, hstrict]

/-- What is loaded has the length that was asked for. -/
theorem load_cases (hstrict : u.past = none) {off n : ℤ} (hn : 0 ≤ n) :
    (∃ bytes, load u arr off n = .ok bytes ∧ (bytes.length : ℤ) = n) ∨
      load u arr off n = .error .invalidAccess := by
  by_cases hzero : n = 0
  · subst hzero
    exact .inl ⟨[], rfl, rfl⟩
  · by_cases hout : off < 0 ∨ n < 0 ∨ arr.buffer.length < off + n
    · exact .inr (load_outside hzero hout hstrict)
    · obtain ⟨a, rfl⟩ := Int.eq_ofNat_of_zero_le (a := off) (by omega)
      obtain ⟨k, rfl⟩ := Int.eq_ofNat_of_zero_le hn
      refine .inl ⟨_, load_inside (by omega), ?_⟩
      rw [List.length_take, List.length_drop]
      omega

theorem store_outside {off : ℤ} {bytes : List UInt8} (hne : bytes ≠ [])
    (hout : off < 0 ∨ arr.buffer.length < off + bytes.length) :
    store arr off bytes = .error .invalidAccess := by
  unfold store
  rw [if_neg (by simp [hne])]
  split
  · rfl
  · rename_i hpos
    have hstore : Block.store? arr.buffer off.toNat bytes = none := if_neg (by omega)
    rw [hstore]

/-- A copy of some bytes that starts or ends in front of the block fails. -/
theorem fails_copyWithin (hstrict : u.past = none) {dest src n : ℤ} (hsize : 0 < arr.size)
    (hn : 0 < n) (hout : dest < 0 ∨ src < 0) : Fails (copyWithin u arr dest src n) := by
  have hneg : ∀ {pos : ℤ}, pos < 0 → (arr.size : ℤ) * pos < 0 := by
    intro pos hpos
    exact Int.mul_neg_of_pos_of_neg (by omega) hpos
  unfold copyWithin byteOffset
  apply fails_int_bind
  apply fails_int_bind
  have hcases := @load_cases u arr hstrict (arr.size * src) n (Int.le_of_lt hn)
  rcases hcases with ⟨bytes, hload, hlen⟩ | hload
  · rw [hload, ok_bind]
    have hne : bytes ≠ [] := by
      rintro rfl
      rw [List.length_nil] at hlen
      omega
    rcases hout with hdest | hsrc
    · exact .inl (store_outside hne (.inl (hneg hdest)))
    · rw [load_outside (by omega) (.inl (hneg hsrc)) hstrict] at hload
      cases hload
  · rw [hload]
    exact .inl rfl

end Strict

/-! ## Items of no bytes -/

theorem byteOffset_empty (hsize : arr.size = 0) (pos : ℤ) : byteOffset arr pos = .ok 0 := by
  rw [byteOffset, hsize, Int.natCast_zero, Int.zero_mul, int_ok (by omega) (by omega)]

theorem tailLength_empty (hsize : arr.size = 0) {pos : ℤ} (hmin : -2 ^ 31 ≤ arr.length - pos)
    (hlt : arr.length - pos < 2 ^ 31) : tailLength arr pos = .ok 0 := by
  rw [tailLength, int_ok hmin hlt, ok_bind, hsize, Int.natCast_zero, Int.mul_zero,
    int_ok (by omega) (by omega)]

theorem copyWithin_empty (hsize : arr.size = 0) (dest src : ℤ) :
    copyWithin u arr dest src 0 = .ok arr := by
  simp only [copyWithin, byteOffset_empty hsize, ok_bind]
  rfl

theorem writeItem_empty (hsize : arr.size = 0) (pos : ℤ) (data : ℕ → UInt8) :
    writeItem arr pos (itemAt arr.size data) = .ok arr := by
  rw [writeItem, byteOffset_empty hsize, ok_bind, hsize]
  rfl

/-! ## When a call ends well -/

/-- The call returns or stops, at an index that is too large or for want of a block. -/
def Ends {β : Type} (result : Except ArrayHalt β) : Prop :=
  (∃ b, result = .ok b) ∨ result = .error .indexError ∨ result = .error .fatal

theorem Fails.not_ends {result : Except ArrayHalt β} (h : Fails result) : ¬ Ends result := by
  rintro (⟨b, hok⟩ | herror | hfatal)
  · exact h.ne_ok b hok
  · rcases h with rfl | rfl
    · cases herror
    · cases herror
  · rcases h with rfl | rfl
    · cases hfatal
    · cases hfatal

theorem writePosition_bounds (h : Sane arr) {index : ℤ} (hmin : -2 ^ 31 ≤ index)
    (hle : index ≤ arr.length) :
    writePosition arr index ≤ arr.length ∧ arr.length - writePosition arr index < 2 ^ 31 ∧
      -2 ^ 31 < writePosition arr index := by
  have hpos := h.length_nonneg
  have hcap := h.length_le
  have hlt := h.capacity_lt
  unfold writePosition
  split
  · refine ⟨?_, ?_, ?_⟩ <;> omega
  · refine ⟨?_, ?_, ?_⟩ <;> omega

/-! ## Stores and gaps -/

/-- The tail of the destination is out of the way. -/
theorem Sane.openGap {dest₁ : ArrayT} (h : Sane dest₁) (u : Unspecified) {pos n : ℤ}
    (hn : 0 ≤ n) (hroom : dest₁.length + n ≤ dest₁.capacity) (hle : pos ≤ dest₁.length)
    (htail : dest₁.length - pos < 2 ^ 31) (hpos : dest₁.size = 0 ∨ 0 ≤ pos) :
    ∃ tail dest₂, tailLength dest₁ pos = .ok tail ∧
      copyWithin u dest₁ (pos + n) pos tail = .ok dest₂ ∧ Sane dest₂ ∧
      dest₂.size = dest₁.size ∧ dest₂.length = dest₁.length ∧
      dest₂.capacity = dest₁.capacity ∧ byteOffset dest₂ pos = .ok (dest₁.size * pos) := by
  obtain ⟨l, hl⟩ := h.exists_holds
  have hlen := hl.length_eq
  rcases Int.lt_or_le pos 0 with hneg | hge
  · have hsize : dest₁.size = 0 := by omega
    refine ⟨0, dest₁, tailLength_empty hsize (by omega) htail, copyWithin_empty hsize _ _, h, rfl,
      rfl, rfl, ?_⟩
    rw [byteOffset_empty hsize, hsize, Int.natCast_zero, Int.zero_mul]
  · obtain ⟨i, rfl⟩ := Int.eq_ofNat_of_zero_le hge
    obtain ⟨k, rfl⟩ := Int.eq_ofNat_of_zero_le hn
    have hi : i ≤ l.length := by omega
    have hspace : l.length + k ≤ dest₁.capacity := by omega
    have hgap := h.toFormed.withBuffer (hl.length_gapped hi hspace)
    have hsane := Sane.mk hgap h.length_nonneg h.length_le
    refine ⟨_, _, hl.tailLength hi, hl.openGap u hi hspace, hsane, rfl, rfl, rfl, ?_⟩
    have hcap : i ≤ dest₁.capacity := by omega
    rw [hgap.byteOffset hcap, Int.natCast_mul]

/-- A gap that starts in front of the block cannot be opened. -/
theorem Sane.fails_openGap (h : Sane arr) (hstrict : u.past = none) (hsize : 0 < arr.size) {pos : ℤ}
    (hneg : pos < 0) (dest : ℤ) (f : ArrayT → Except ArrayHalt β) :
    Fails (tailLength arr pos >>= fun tail => copyWithin u arr dest pos tail >>= f) := by
  have hnonneg := h.length_nonneg
  have hn : 0 < (arr.length - pos) * (arr.size : ℤ) := Int.mul_pos (by omega) (by omega)
  apply fails_tailLength_bind
  apply Fails.bind
  exact fails_copyWithin hstrict hsize hn (.inr hneg)

theorem Sane.tailLength_zero (h : Sane arr) :
    tailLength arr 0 = .ok ((arr.size : ℤ) * arr.length) := by
  obtain ⟨l, hl⟩ := h.exists_holds
  rw [hl.tailLength_zero, hl.length_eq, Int.natCast_mul]

theorem Sane.load_all (h : Sane arr) (u : Unspecified) :
    ∃ bytes, load u arr 0 ((arr.size : ℤ) * arr.length) = .ok bytes ∧
      (bytes.length : ℤ) = arr.size * arr.length := by
  obtain ⟨l, hl⟩ := h.exists_holds
  refine ⟨l.flatten, ?_, ?_⟩
  · have hload := hl.load_all u
    rwa [Int.natCast_mul, ← hl.length_eq] at hload
  · rw [length_flatten hl.sizes, Int.natCast_mul, hl.length_eq]

theorem exists_store {off : ℤ} {bytes : List UInt8} (hoff : 0 ≤ off)
    (hfit : bytes = [] ∨ off + bytes.length ≤ arr.buffer.length) :
    ∃ buffer, store arr off bytes = .ok { arr with buffer := buffer } ∧
      buffer.length = arr.buffer.length := by
  rcases hfit with rfl | hle
  · exact ⟨arr.buffer, rfl, rfl⟩
  · obtain ⟨a, rfl⟩ := Int.eq_ofNat_of_zero_le hoff
    have hinside : a + bytes.length ≤ arr.buffer.length := by omega
    exact ⟨_, store_inside hinside, Block.length_overwrite hinside⟩

/-- Only bytes of the block are not as they were. -/
def Rewritten (arr arr' : ArrayT) : Prop :=
  ∃ buffer, arr' = { arr with buffer := buffer } ∧ buffer.length = arr.buffer.length

theorem store_ok {arr' : ArrayT} {off : ℤ} {bytes : List UInt8}
    (h : store arr off bytes = .ok arr') : Rewritten arr arr' := by
  unfold store at h
  split at h
  · cases h
    exact ⟨arr.buffer, rfl, rfl⟩
  · split at h
    · cases h
    · unfold Block.store? at h
      split at h
      · rename_i buffer hstore
        split at hstore
        · rename_i hinside
          cases hstore
          cases h
          exact ⟨_, rfl, Block.length_overwrite hinside⟩
        · cases hstore
      · cases h

theorem Sane.withBuffer (h : Sane arr) {buffer : List UInt8}
    (hlen : buffer.length = arr.buffer.length) : Sane { arr with buffer := buffer } :=
  ⟨h.toFormed.withBuffer hlen, h.length_nonneg, h.length_le⟩

end ArrayT

end SimpleVm
