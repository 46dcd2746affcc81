import Mathlib.Algebra.Order.BigOperators.Group.List
import SimpleVm.VmCommon.CodeGrowth

/-!
# The code buffer as a stream of typed values

The first `len` bytes of the block are the encodings of the values written
so far, one behind the other, and the cursor stands behind those that were
read. Growing the block in between changes neither.
-/

namespace SimpleVm.CodeBuffer

def stream (items : List Item) : List UInt8 := items.flatMap Item.bytes

def offset (items : List Item) : ℕ := (items.map fun item => item.width.size).sum

theorem length_stream (items : List Item) : (stream items).length = offset items := by
  simp [stream, offset, List.length_flatMap]

@[simp] theorem stream_append (xs ys : List Item) :
    stream (xs ++ ys) = stream xs ++ stream ys := List.flatMap_append

@[simp] theorem offset_append (xs ys : List Item) :
    offset (xs ++ ys) = offset xs + offset ys := by simp [offset]

@[simp] theorem stream_singleton (item : Item) : stream [item] = item.bytes := by simp [stream]

@[simp] theorem offset_singleton (item : Item) : offset [item] = item.width.size := by
  simp [offset]

/-- The buffer after `items` were written and the first `n` of them read. -/
structure Holds (items : List Item) (n : ℕ) (buf : CodeBuffer) : Prop where
  length_code : buf.code.length = buf.cap
  cap_pow : ∃ e, e ≤ 31 ∧ buf.cap = 2 ^ e
  stream_starts : stream items <+: buf.code
  len_eq : buf.len = offset items
  index_eq : buf.index = offset (items.take n)

theorem holds_create : Holds [] 0 createCodeBuffer where
  length_code := rfl
  cap_pow := ⟨3, by omega, rfl⟩
  stream_starts := List.nil_prefix
  len_eq := rfl
  index_eq := rfl

theorem Holds.of_item_mem {items : List Item} {n : ℕ} {buf : CodeBuffer}
    (h : Holds items n buf) {pre post : List Item} {item : Item}
    (hitems : items = pre ++ item :: post) :
    Block.load? buf.code (offset pre) item.width.size = some item.bytes := by
  have hstream : stream pre ++ item.bytes ++ stream post <+: buf.code := by
    have heq : stream items = stream pre ++ item.bytes ++ stream post := by
      rw [hitems, List.append_cons, stream_append, stream_append, stream_singleton]
    exact heq ▸ h.stream_starts
  have hload := Block.load?_inside hstream
  rwa [length_stream, Item.length_bytes] at hload

theorem Holds.resize {items : List Item} {n : ℕ} {buf : CodeBuffer} (h : Holds items n buf)
    (fresh : ℕ → UInt8) {size : ℕ} (hsize : offset items + size < 2 ^ 31) :
    ∃ buf', buf.resize fresh size = .ok buf' ∧ Holds items n buf' ∧
      offset items + size ≤ buf'.cap := by
  rw [CodeBuffer.resize]
  by_cases hroom : buf.cap < buf.len + size
  · obtain ⟨e, he, hcap⟩ := h.cap_pow
    have hneed : buf.len + size ≤ 2 ^ 31 := by
      rw [h.len_eq]
      exact hsize.le
    obtain ⟨e', hee', he', hle, hloop⟩ := exists_doubling he hneed
    rw [doubling] at hloop
    have hgrow : buf.code.length ≤ 2 ^ e' := by
      rw [h.length_code, hcap]
      exact Nat.pow_le_pow_right (by norm_num) hee'
    rw [if_pos hroom, hcap, hloop]
    refine ⟨_, rfl, ⟨?_, ⟨e', he', rfl⟩, ?_, h.len_eq, h.index_eq⟩, ?_⟩
    · exact Block.length_grow _ _ _
    · exact Block.prefix_grow h.stream_starts hgrow
    · rw [← h.len_eq]
      exact hle
  · rw [if_neg hroom]
    refine ⟨buf, rfl, h, ?_⟩
    rw [← h.len_eq]
    omega

theorem Holds.add {items : List Item} {n : ℕ} {buf : CodeBuffer} (h : Holds items n buf)
    (hn : n ≤ items.length) (fresh : ℕ → UInt8) {item : Item}
    (hsize : offset (items ++ [item]) < 2 ^ 31) :
    ∃ buf', buf.add fresh item = .ok (offset (items ++ [item]), buf') ∧
      Holds (items ++ [item]) n buf' := by
  rw [offset_append, offset_singleton] at hsize ⊢
  obtain ⟨buf₁, hresize, h₁, hroom⟩ := h.resize fresh hsize
  have hstore := Block.exists_store_behind item.bytes h₁.stream_starts (by
    rw [length_stream, Item.length_bytes, h₁.length_code]
    exact hroom)
  obtain ⟨code, hcode, hlen, hstarts⟩ := hstore
  rw [length_stream, ← h₁.len_eq] at hcode
  have hnew : uint (buf₁.len + item.width.size) = offset items + item.width.size := by
    rw [h₁.len_eq, uint, Nat.mod_eq_of_lt (by omega)]
  refine ⟨{ buf₁ with code := code, len := offset items + item.width.size }, ?_, ?_⟩
  · rw [Item.bytes] at hcode
    rw [add_eq, addCode, hresize, ok_bind, hcode, hnew]
  · refine ⟨hlen.trans h₁.length_code, h₁.cap_pow, ?_, ?_, ?_⟩
    · rwa [stream_append, stream_singleton]
    · rw [offset_append, offset_singleton]
    · rw [List.take_append_of_le_length hn]
      exact h₁.index_eq

theorem Holds.read {items : List Item} {n : ℕ} {buf : CodeBuffer} (h : Holds items n buf)
    {item : Item} {rest : List Item} (hnext : items.drop n = item :: rest)
    (hsize : offset items < 2 ^ 31) :
    ∃ buf', buf.read item.width = .ok (item, buf') ∧ Holds items (n + 1) buf' := by
  have hsplit : items = items.take n ++ item :: rest := by
    rw [← hnext, List.take_append_drop]
  have hload := h.of_item_mem hsplit
  rw [← h.index_eq] at hload
  have htake : items.take (n + 1) = items.take n ++ [item] := by
    rw [List.take_add, hnext]
    rfl
  have hindex : uint (buf.index + item.width.size) = offset (items.take (n + 1)) := by
    have hle : offset (items.take (n + 1)) ≤ offset items := by
      conv_rhs => rw [← List.take_append_drop (n + 1) items, offset_append]
      exact Nat.le_add_right _ _
    rw [htake, offset_append, offset_singleton] at hle ⊢
    rw [h.index_eq, uint, Nat.mod_eq_of_lt (by omega)]
  refine ⟨{ buf with index := offset (items.take (n + 1)) }, ?_, ?_⟩
  · rw [read_eq, readCode, hload, hindex, ok_bind, Item.decode_bytes]
  · exact ⟨h.length_code, h.cap_pow, h.stream_starts, h.len_eq, rfl⟩

theorem Holds.readIdx {items : List Item} {n : ℕ} {buf : CodeBuffer} (h : Holds items n buf)
    {pre post : List Item} {item : Item} (hitems : items = pre ++ item :: post) :
    buf.readIdx (offset pre) item.width = .ok item := by
  have hidx : offset pre < buf.len := by
    have hpos : 0 < item.width.size := by cases item.width <;> decide
    rw [h.len_eq, hitems, List.append_cons, offset_append, offset_append, offset_singleton]
    omega
  rw [readIdx_eq, readCodeIdx, if_pos hidx, h.of_item_mem hitems, ok_bind, Item.decode_bytes]

/-! ## Whole runs -/

inductive Op where
  | add (item : Item)
  | read (width : Width)

def written : List Op → List Item
  | [] => []
  | .add item :: ops => item :: written ops
  | .read _ :: ops => written ops

def reads : List Op → ℕ
  | [] => 0
  | .add _ :: ops => reads ops
  | .read _ :: ops => reads ops + 1

/-- The reads take the values in the order they were written, never more
than there are, and with their widths. `pending` are those still to be read. -/
def InOrder : List Item → List Op → Prop
  | _, [] => True
  | pending, .add item :: ops => InOrder (pending ++ [item]) ops
  | [], .read _ :: _ => False
  | item :: pending, .read width :: ops => width = item.width ∧ InOrder pending ops

/-- All calls in order, with the values that the cursor reads returned. -/
def run (fresh : ℕ → UInt8) (buf : CodeBuffer) : List Op → Except Halt (List Item × CodeBuffer)
  | [] => .ok ([], buf)
  | .add item :: ops => do
      let (_, buf) ← buf.add fresh item
      run fresh buf ops
  | .read width :: ops => do
      let (item, buf) ← buf.read width
      let (items, buf) ← run fresh buf ops
      .ok (item :: items, buf)

theorem run_add {fresh : ℕ → UInt8} {buf buf' : CodeBuffer} {item : Item} {len : ℕ}
    (h : buf.add fresh item = .ok (len, buf')) (ops : List Op) :
    run fresh buf (.add item :: ops) = run fresh buf' ops := by
  rw [run, h]
  rfl

theorem run_read {fresh : ℕ → UInt8} {buf buf' buf'' : CodeBuffer} {item : Item} {width : Width}
    {ops : List Op} {items : List Item} (h : buf.read width = .ok (item, buf'))
    (hrun : run fresh buf' ops = .ok (items, buf'')) :
    run fresh buf (.read width :: ops) = .ok (item :: items, buf'') := by
  rw [run, h]
  simp only [ok_bind, hrun]

theorem Holds.run {items : List Item} {n : ℕ} {buf : CodeBuffer} (h : Holds items n buf)
    (hn : n ≤ items.length) (fresh : ℕ → UInt8) {ops : List Op}
    (horder : InOrder (items.drop n) ops) (hsize : offset (items ++ written ops) < 2 ^ 31) :
    ∃ buf', CodeBuffer.run fresh buf ops =
        .ok (((items ++ written ops).drop n).take (reads ops), buf') ∧
      Holds (items ++ written ops) (n + reads ops) buf' := by
  induction ops generalizing items n buf with
  | nil => exact ⟨buf, by simp [CodeBuffer.run, reads], by simpa [written, reads] using h⟩
  | cons op ops ih =>
      cases op with
      | add item =>
          have happ : items ++ written (.add item :: ops) = (items ++ [item]) ++ written ops := by
            simp [written]
          rw [happ] at hsize ⊢
          have hone : offset (items ++ [item]) < 2 ^ 31 := by
            rw [offset_append] at hsize
            omega
          obtain ⟨buf₁, hadd, h₁⟩ := h.add hn fresh hone
          have horder₁ : InOrder ((items ++ [item]).drop n) ops := by
            rw [List.drop_append_of_le_length hn]
            exact horder
          obtain ⟨buf', hrun, h'⟩ := ih h₁ (by simp; omega) horder₁ hsize
          exact ⟨buf', by rw [run_add hadd, hrun, reads], h'⟩
      | read width =>
          match hnext : items.drop n with
          | [] =>
              rw [hnext] at horder
              exact horder.elim
          | item :: rest =>
              rw [hnext] at horder
              obtain ⟨rfl, horder⟩ := horder
              have hlt : n < items.length := by
                by_contra hge
                simp [List.drop_eq_nil_of_le (not_lt.mp hge)] at hnext
              have hall : offset items < 2 ^ 31 := by
                rw [offset_append] at hsize
                omega
              obtain ⟨buf₁, hread, h₁⟩ := h.read hnext hall
              have hrest : items.drop (n + 1) = rest := by
                rw [← List.drop_drop, hnext]
                rfl
              obtain ⟨buf', hrun, h'⟩ := ih h₁ hlt (hrest.symm ▸ horder) hsize
              have hdrop : (items ++ written ops).drop n =
                  item :: (items ++ written ops).drop (n + 1) := by
                rw [List.drop_append_of_le_length hn, hnext, List.drop_append_of_le_length hlt,
                  hrest]
                rfl
              refine ⟨buf', ?_, ?_⟩
              · rw [run_read hread hrun, written, hdrop, reads, List.take_succ_cons]
              · have hcount : n + reads (.read item.width :: ops) = n + 1 + reads ops := by
                  rw [reads]
                  omega
                rw [hcount]
                exact h'

/-- The cursor reads return the written values in order, and at the end of
any such run each value is also read back at the offset where it was written. -/
theorem run_faithful (fresh : ℕ → UInt8) (ops : List Op) (horder : InOrder [] ops)
    (hsize : offset (written ops) < 2 ^ 31) :
    ∃ buf, run fresh createCodeBuffer ops = .ok ((written ops).take (reads ops), buf) ∧
      ∀ pre item post, written ops = pre ++ item :: post →
        buf.readIdx (offset pre) item.width = .ok item := by
  obtain ⟨buf, hrun, h⟩ := holds_create.run le_rfl fresh horder hsize
  exact ⟨buf, hrun, fun pre item post hitems => h.readIdx hitems⟩

theorem run_faithful_mixed_widths :
    ∃ buf, run (fun _ => 0xA5) createCodeBuffer
        [.add (.short 0x123), .read .short, .add (.short 0xAA0), .add (.long 0xDEADBEEF0000),
          .read .short, .add (.char 7)] = .ok ([.short 0x123, .short 0xAA0], buf) ∧
      buf.readIdx 4 .long = .ok (.long 0xDEADBEEF0000) := by
  obtain ⟨buf, hrun, hidx⟩ := run_faithful (fun _ => 0xA5)
    [.add (.short 0x123), .read .short, .add (.short 0xAA0), .add (.long 0xDEADBEEF0000),
      .read .short, .add (.char 7)] (by simp [InOrder, Item.width]) (by decide)
  exact ⟨buf, hrun, hidx [.short 0x123, .short 0xAA0] (.long 0xDEADBEEF0000) [.char 7] rfl⟩

end SimpleVm.CodeBuffer
