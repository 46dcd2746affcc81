import SimpleVm.VmCommon.CodeGrowth

/-!
# Reading code

A value is read whole, from the cursor or from an index. The code emitted is
the first `len` bytes of the block, and the block goes on behind them.
-/

namespace SimpleVm.CodeBuffer

inductive Access where
  | cursor
  | indexed (idx : UInt32)
  deriving DecidableEq

def Access.position (buf : CodeBuffer) : Access → ℕ
  | .cursor => buf.index
  | .indexed idx => idx.toNat

def fetch (buf : CodeBuffer) (width : Width) : Access → Except Halt Item
  | .cursor => do
      let (item, _) ← buf.read width
      .ok item
  | .indexed idx => buf.readIdx idx.toNat width

/-- The code emitted so far. -/
def emitted (buf : CodeBuffer) : List UInt8 := buf.code.take buf.len

/-- The program stops in `FATAL`, or the value is made of bytes emitted. -/
def ReadsEmitted (buf : CodeBuffer) (width : Width) (access : Access) : Prop :=
  buf.fetch width access = .error .fatal ∨
    ∃ cells, Block.load? buf.emitted (access.position buf) width.size = some cells ∧
      buf.fetch width access = .ok (Item.ofNat width (LittleEndian.decode cells))

theorem Sound.length_emitted {buf : CodeBuffer} (h : Sound buf) :
    buf.emitted.length = buf.len := by
  rw [emitted, List.length_take, h.length_code]
  exact Nat.min_eq_left h.len_le

theorem Sound.load?_emitted {buf : CodeBuffer} (h : Sound buf) {pos size : ℕ}
    (hpos : pos + size ≤ buf.len) :
    Block.load? buf.emitted pos size = Block.load? buf.code pos size := by
  have hcode : pos + size ≤ buf.code.length := by
    rw [h.length_code]
    exact Nat.le_trans hpos h.len_le
  have hcells : ((buf.code.take buf.len).drop pos).take size = (buf.code.drop pos).take size := by
    rw [List.drop_take, List.take_take]
    congr 1
    omega
  rw [Block.load?, Block.load?, if_pos hcode, if_pos (by rwa [h.length_emitted]), emitted, hcells]

theorem fetch_cursor (buf : CodeBuffer) (width : Width) :
    buf.fetch width .cursor =
      match Block.load? buf.code buf.index width.size with
      | some cells => .ok (Item.ofNat width (LittleEndian.decode cells))
      | none => .error .invalidAccess := by
  cases hload : Block.load? buf.code buf.index width.size with
  | none => simp only [fetch, read_eq, readCode, hload, error_bind]
  | some cells => simp only [fetch, read_eq, readCode, hload, ok_bind]

theorem fetch_indexed {buf : CodeBuffer} {idx : UInt32} (hidx : idx.toNat < buf.len)
    (width : Width) :
    buf.fetch width (.indexed idx) =
      match Block.load? buf.code idx.toNat width.size with
      | some cells => .ok (Item.ofNat width (LittleEndian.decode cells))
      | none => .error .invalidAccess := by
  cases hload : Block.load? buf.code idx.toNat width.size with
  | none => simp only [fetch, readIdx_eq, readCodeIdx, if_pos hidx, hload, error_bind]
  | some cells => simp only [fetch, readIdx_eq, readCodeIdx, if_pos hidx, hload, ok_bind]

theorem fetch_indexed_of_le {buf : CodeBuffer} {idx : UInt32} (hidx : buf.len ≤ idx.toNat)
    (width : Width) : buf.fetch width (.indexed idx) = .error .fatal := by
  simp only [fetch, readIdx_eq, readCodeIdx, if_neg (Nat.not_lt.mpr hidx), error_bind]

/-- The index is refused, or the whole value lies in the code emitted. -/
def Access.Covered (buf : CodeBuffer) (width : Width) : Access → Prop
  | .cursor => buf.index + width.size ≤ buf.len
  | .indexed idx => buf.len ≤ idx.toNat ∨ idx.toNat + width.size ≤ buf.len

/-- The code checks at most the first byte of a value: all others must lie
in the code emitted by themselves. -/
theorem readsEmitted_iff {buf : CodeBuffer} (h : Reachable buf) (width : Width)
    (access : Access) : buf.ReadsEmitted width access ↔ access.Covered buf width := by
  have hsound := h.sound
  -- a read that passes the check of the source, if there is one
  have hread : (buf.fetch width access =
      match Block.load? buf.code (access.position buf) width.size with
      | some cells => .ok (Item.ofNat width (LittleEndian.decode cells))
      | none => .error .invalidAccess) →
      (buf.ReadsEmitted width access ↔ access.position buf + width.size ≤ buf.len) := by
    intro hfetch
    constructor
    · rintro (hfatal | ⟨cells, hload, -⟩)
      · rw [hfetch] at hfatal
        split at hfatal <;> cases hfatal
      · by_contra hlong
        rw [Block.load?, if_neg (by rwa [hsound.length_emitted])] at hload
        cases hload
    · intro hpos
      have hload : Block.load? buf.emitted (access.position buf) width.size =
          some ((buf.emitted.drop (access.position buf)).take width.size) :=
        if_pos (by rwa [hsound.length_emitted])
      refine Or.inr ⟨_, hload, ?_⟩
      rw [hfetch, ← hsound.load?_emitted hpos, hload]
  cases access with
  | cursor => exact hread (fetch_cursor buf width)
  | indexed idx =>
      by_cases hidx : idx.toNat < buf.len
      · have hiff := hread (fetch_indexed hidx width)
        simpa [Access.Covered, Access.position, Nat.not_le.mpr hidx] using hiff
      · have hle := Nat.not_lt.mp hidx
        exact iff_of_true (Or.inl (fetch_indexed_of_le hle width)) (Or.inl hle)

/-- Three bytes emitted: the last `short` to be had from them begins at 1. -/
theorem readsEmitted_iff_three : ∃ buf, Reachable buf ∧ buf.emitted = [2, 1, 7] ∧
    buf.ReadsEmitted .short (.indexed 1) ∧ ¬ buf.ReadsEmitted .short (.indexed 2) := by
  have hshort : createCodeBuffer.perform (fun _ => 0) (.add (.short 0x0102)) =
      .ok { createCodeBuffer with code := [2, 1, 0, 0, 0, 0, 0, 0], len := 2 } := by decide
  have hchar : CodeBuffer.perform (fun _ => 0)
      { createCodeBuffer with code := [2, 1, 0, 0, 0, 0, 0, 0], len := 2 } (.add (.char 7)) =
      .ok { createCodeBuffer with code := [2, 1, 7, 0, 0, 0, 0, 0], len := 3 } := by decide
  have h := (Reachable.create.call hshort).call hchar
  refine ⟨_, h, by decide, (readsEmitted_iff h .short (.indexed 1)).mpr (Or.inr (by decide)), ?_⟩
  intro hreads
  rcases (readsEmitted_iff h .short (.indexed 2)).mp hreads with hrefused | hcovered
  · exact absurd hrefused (by decide)
  · exact absurd hcovered (by decide)

/-- One `add_code_char`, and both ways to read a `short` go one byte too far. -/
theorem exists_not_readsEmitted : ∃ buf, Reachable buf ∧ buf.len = 1 ∧
    ¬ buf.ReadsEmitted .short .cursor ∧ ¬ buf.ReadsEmitted .short (.indexed 0) := by
  have hcall : createCodeBuffer.perform (fun _ => 0) (.add (.char 7)) =
      .ok { createCodeBuffer with code := [7, 0, 0, 0, 0, 0, 0, 0], len := 1 } := by decide
  refine ⟨_, Reachable.create.call hcall, rfl, ?_, ?_⟩
  · rintro (hfatal | ⟨cells, hload, -⟩)
    · exact absurd hfatal (by decide)
    · exact absurd hload (by simp [Block.load?, emitted, Width.size, Access.position])
  · rintro (hfatal | ⟨cells, hload, -⟩)
    · exact absurd hfatal (by decide)
    · exact absurd hload (by simp [Block.load?, emitted, Width.size, Access.position])

end SimpleVm.CodeBuffer
