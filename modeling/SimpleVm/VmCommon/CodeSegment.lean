import SimpleVm.VmCommon.CodeReads

/-!
# The code buffer as a segment of code

To its callers the buffer is the code emitted so far and an index. Values are
added at the end, whatever the index is, and read from the index or from any
other place, in any order. The buffer answers every call as the segment does,
up to the first read that goes over the end of the code.
-/

namespace SimpleVm.CodeBuffer

structure Segment where
  bytes : List UInt8
  index : ℕ
  deriving DecidableEq

/-- What a call returns. -/
inductive Reply where
  | length (len : ℕ)
  | value (item : Item)
  | done
  deriving DecidableEq

/-! ## The segment -/

namespace Segment

def empty : Segment := ⟨[], 0⟩

/-- The value of a read, or an access behind the code. -/
def fetch (s : Segment) (pos : ℕ) (width : Width) : Except Halt Item :=
  match Block.load? s.bytes pos width.size with
  | some cells => .ok (Item.ofNat width (LittleEndian.decode cells))
  | none => .error .invalidAccess

/-- A segment has room for `2 ^ 31` bytes. -/
def reply (s : Segment) : Call → Except Halt (Reply × Segment)
  | .add item =>
      if s.bytes.length + item.width.size ≤ 2 ^ 31 then
        .ok (.length (s.bytes.length + item.width.size), { s with bytes := s.bytes ++ item.bytes })
      else .error .diverges
  | .read width => do
      let item ← s.fetch s.index width
      .ok (.value item, { s with index := s.index + width.size })
  | .readIdx width idx =>
      if idx.toNat < s.bytes.length then do
        let item ← s.fetch idx.toNat width
        .ok (.value item, s)
      else .error .fatal
  | .resetCodeIndex => .ok (.done, { s with index := 0 })
  | .setCodeIndex idx =>
      if idx.toNat < s.bytes.length then .ok (.done, { s with index := idx.toNat })
      else .error .fatal

def replies : Segment → List Call → Except Halt (List Reply × Segment)
  | s, [] => .ok ([], s)
  | s, call :: calls => do
      let (r, s) ← s.reply call
      let (rs, s) ← s.replies calls
      .ok (r :: rs, s)

end Segment

/-! ## The buffer -/

def reply (fresh : ℕ → UInt8) (buf : CodeBuffer) : Call → Except Halt (Reply × CodeBuffer)
  | .add item => do
      let (len, buf) ← buf.add fresh item
      .ok (.length len, buf)
  | .read width => do
      let (item, buf) ← buf.read width
      .ok (.value item, buf)
  | .readIdx width idx => do
      let item ← buf.readIdx idx.toNat width
      .ok (.value item, buf)
  | .resetCodeIndex => .ok (.done, resetCodeIndex buf)
  | .setCodeIndex idx => do
      let buf ← setCodeIndex idx.toNat buf
      .ok (.done, buf)

/-- Each call meets its own allocator. -/
def replies : CodeBuffer → List ((ℕ → UInt8) × Call) → Except Halt (List Reply × CodeBuffer)
  | buf, [] => .ok ([], buf)
  | buf, (fresh, call) :: calls => do
      let (r, buf) ← buf.reply fresh call
      let (rs, buf) ← replies buf calls
      .ok (r :: rs, buf)

/-- What the callers know of a buffer. -/
def segment (buf : CodeBuffer) : Segment := ⟨buf.emitted, buf.index⟩

def observe {ρ : Type} (r : ρ × CodeBuffer) : ρ × Segment := (r.1, segment r.2)

section Refinement

variable {fresh : ℕ → UInt8} {buf buf' : CodeBuffer}

theorem emitted_starts (buf : CodeBuffer) : buf.emitted <+: buf.code := List.take_prefix _ _

theorem emitted_of_prefix {bytes : List UInt8} (hstart : bytes <+: buf.code)
    (hlen : buf.len = bytes.length) : buf.emitted = bytes := by
  rw [emitted, hlen]
  exact (List.prefix_iff_eq_take.mp hstart).symm

/-- A block that is moved takes the code with it. -/
theorem Sound.resize_emitted (h : Sound buf) {size : ℕ}
    (hrun : buf.resize fresh size = .ok buf') :
    buf.emitted <+: buf'.code ∧ buf'.index = buf.index := by
  rw [CodeBuffer.resize] at hrun
  split at hrun
  · next hroom =>
      split at hrun
      · next cap hloop =>
          obtain rfl := Except.ok.inj hrun
          have henough := RepeatUntil.enough_of_eq_some hloop
          have hcap : buf.len + size ≤ cap := by simpa using henough
          have hgrow : buf.code.length ≤ cap := by
            rw [h.length_code]
            omega
          exact ⟨Block.prefix_grow (emitted_starts buf) hgrow, rfl⟩
      · cases hrun
  · obtain rfl := Except.ok.inj hrun
    exact ⟨emitted_starts buf, rfl⟩

/-- A value that is added stands behind the code, wherever the index is. -/
theorem Sound.add_emitted (h : Sound buf) (fresh : ℕ → UInt8) {item : Item}
    (hsize : buf.len + item.width.size ≤ 2 ^ 31) :
    ∃ buf', buf.add fresh item = .ok (buf.len + item.width.size, buf') ∧ Sound buf' ∧
      segment buf' = ⟨buf.emitted ++ item.bytes, buf.index⟩ := by
  obtain ⟨buf₁, hresize, h₁, hlen, hroom⟩ := h.resize fresh hsize
  obtain ⟨hstart, hindex⟩ := h.resize_emitted hresize
  obtain ⟨code, hstore, hcode, hstart'⟩ := Block.exists_store_behind item.bytes hstart (by
    rw [h.length_emitted, Item.length_bytes, h₁.length_code]
    exact hroom)
  have hnew : uint (buf₁.len + item.width.size) = buf.len + item.width.size := by
    rw [hlen, uint]
    exact Nat.mod_eq_of_lt (by omega)
  rw [h.length_emitted, ← hlen, Item.bytes] at hstore
  refine ⟨{ buf₁ with code := code, len := buf.len + item.width.size }, ?_, ?_, ?_⟩
  · rw [add_eq, addCode, hresize, ok_bind, hstore, hnew]
  · exact ⟨hcode.trans h₁.length_code, h₁.cap_pow, hroom⟩
  · have hlen' : buf.len + item.width.size = (buf.emitted ++ item.bytes).length := by
      rw [List.length_append, h.length_emitted, Item.length_bytes]
    rw [segment, hindex, emitted_of_prefix hstart' hlen']

theorem Sound.length_le (h : Sound buf) : buf.len ≤ 2 ^ 31 :=
  h.len_le.trans (CapOrZero.le (Or.inr h.cap_pow))

/-- Inside the code emitted the block and the segment hold the same. -/
theorem Sound.load?_of_emitted (h : Sound buf) {pos size : ℕ} {cells : List UInt8}
    (hload : Block.load? buf.emitted pos size = some cells) :
    Block.load? buf.code pos size = some cells ∧ pos + size ≤ buf.len := by
  have hpos : pos + size ≤ buf.len := by
    by_contra hlong
    rw [Block.load?, if_neg (by rwa [h.length_emitted])] at hload
    cases hload
  rw [← h.load?_emitted hpos]
  exact ⟨hload, hpos⟩

/-! ## One call -/

/-- One call, answered as the segment answers it. -/
def Answers (fresh : ℕ → UInt8) (buf : CodeBuffer) (call : Call) : Prop :=
  (buf.reply fresh call).map observe = (segment buf).reply call

theorem Sound.answers_add (h : Sound buf) (item : Item) : buf.Answers fresh (.add item) := by
  rw [Answers, reply, Segment.reply]
  by_cases hsize : buf.len + item.width.size ≤ 2 ^ 31
  · obtain ⟨buf', hadd, -, hsegment⟩ := h.add_emitted fresh hsize
    have hlen : (segment buf).bytes.length = buf.len := h.length_emitted
    rw [hadd, hlen, if_pos hsize]
    simp only [ok_bind, Except.map, observe, hsegment]
    rfl
  · have hlen : (segment buf).bytes.length = buf.len := h.length_emitted
    rw [h.add_diverges fresh (Nat.not_le.mp hsize), hlen, if_neg hsize]
    rfl

theorem fetch_eq_ok {s : Segment} {pos : ℕ} {width : Width}
    (hfetch : s.fetch pos width ≠ .error .invalidAccess) :
    ∃ cells, Block.load? s.bytes pos width.size = some cells ∧
      s.fetch pos width = .ok (Item.ofNat width (LittleEndian.decode cells)) := by
  cases hload : Block.load? s.bytes pos width.size with
  | none => exact absurd (by rw [Segment.fetch, hload]) hfetch
  | some cells => exact ⟨cells, rfl, by rw [Segment.fetch, hload]⟩

theorem reply_read_eq (buf : CodeBuffer) (width : Width) :
    (segment buf).reply (.read width) = (segment buf).fetch buf.index width >>= fun item =>
      .ok (.value item, ⟨buf.emitted, buf.index + width.size⟩) := rfl

theorem Sound.answers_read (h : Sound buf) {width : Width}
    (hinside : (segment buf).reply (.read width) ≠ .error .invalidAccess) :
    buf.Answers fresh (.read width) := by
  rw [reply_read_eq] at hinside
  have hfetch : (segment buf).fetch buf.index width ≠ .error .invalidAccess := by
    intro hnone
    exact hinside (by rw [hnone, error_bind])
  obtain ⟨cells, hload, hok⟩ := fetch_eq_ok hfetch
  obtain ⟨hcode, hpos⟩ := h.load?_of_emitted hload
  -- the index stays below `2 ^ 32`
  have hindex : uint (buf.index + width.size) = buf.index + width.size := by
    have hlen := h.length_le
    rw [uint]
    exact Nat.mod_eq_of_lt (by omega)
  rw [Answers, reply_read_eq, hok, reply, read_eq, readCode, hcode, hindex]
  rfl

theorem Sound.answers_readIdx (h : Sound buf) {width : Width} {idx : UInt32}
    (hinside : (segment buf).reply (.readIdx width idx) ≠ .error .invalidAccess) :
    buf.Answers fresh (.readIdx width idx) := by
  have hlen : (segment buf).bytes.length = buf.len := h.length_emitted
  rw [Segment.reply, hlen] at hinside
  rw [Answers, reply, Segment.reply, hlen, readIdx_eq, readCodeIdx]
  by_cases hidx : idx.toNat < buf.len
  · rw [if_pos hidx] at hinside
    have hfetch : (segment buf).fetch idx.toNat width ≠ .error .invalidAccess := by
      intro hnone
      exact hinside (by rw [hnone, error_bind])
    obtain ⟨cells, hload, hok⟩ := fetch_eq_ok hfetch
    obtain ⟨hcode, -⟩ := h.load?_of_emitted hload
    rw [if_pos hidx, if_pos hidx, hcode, hok]
    rfl
  · rw [if_neg hidx, if_neg hidx]
    rfl

theorem Sound.answers_setCodeIndex (h : Sound buf) (idx : UInt32) :
    buf.Answers fresh (.setCodeIndex idx) := by
  have hlen : (segment buf).bytes.length = buf.len := h.length_emitted
  rw [Answers, reply, Segment.reply, hlen, setCodeIndex]
  by_cases hidx : idx.toNat < buf.len
  · rw [if_pos hidx, if_pos hidx]
    rfl
  · rw [if_neg hidx, if_neg hidx]
    rfl

theorem Sound.answers (h : Sound buf) {call : Call}
    (hinside : (segment buf).reply call ≠ .error .invalidAccess) : buf.Answers fresh call := by
  cases call with
  | add item => exact h.answers_add item
  | read width => exact h.answers_read hinside
  | readIdx width idx => exact h.answers_readIdx hinside
  | resetCodeIndex => rfl
  | setCodeIndex idx => exact h.answers_setCodeIndex idx

/-- The replies are those of the calls whose effects `perform` has. -/
theorem perform_eq (fresh : ℕ → UInt8) (buf : CodeBuffer) (call : Call) :
    buf.perform fresh call = (buf.reply fresh call).map Prod.snd := by
  cases call with
  | add item => cases h : buf.add fresh item <;> simp [perform, reply, h, Except.map]
  | read width => cases h : buf.read width <;> simp [perform, reply, h, Except.map]
  | readIdx width idx =>
      cases h : buf.readIdx idx.toNat width <;> simp [perform, reply, h, Except.map]
  | resetCodeIndex => rfl
  | setCodeIndex idx =>
      cases h : setCodeIndex idx.toNat buf <;> simp [perform, reply, h, Except.map]

theorem Sound.reply {call : Call} {r : Reply} (h : Sound buf)
    (hcall : buf.reply fresh call = .ok (r, buf')) : Sound buf' := by
  have hperform : buf.perform fresh call = .ok buf' := by
    rw [perform_eq, hcall]
    rfl
  exact h.perform hperform

/-! ## Whole runs -/

theorem Sound.replies (h : Sound buf) {calls : List ((ℕ → UInt8) × Call)}
    (hinside : (segment buf).replies (calls.map Prod.snd) ≠ .error .invalidAccess) :
    (CodeBuffer.replies buf calls).map observe = (segment buf).replies (calls.map Prod.snd) := by
  induction calls generalizing buf with
  | nil => rfl
  | cons first calls ih =>
      obtain ⟨fresh, call⟩ := first
      rw [List.map_cons, Segment.replies] at hinside
      have hanswer : buf.Answers fresh call := by
        apply h.answers
        intro hnone
        exact hinside (by rw [hnone]; rfl)
      rw [Answers] at hanswer
      rw [List.map_cons, Segment.replies, CodeBuffer.replies]
      cases hcall : buf.reply fresh call with
      | error e =>
          rw [hcall] at hanswer
          rw [← hanswer]
          rfl
      | ok pair =>
          obtain ⟨r, buf₁⟩ := pair
          have hseg : (segment buf).reply call = .ok (r, segment buf₁) := by
            rw [← hanswer, hcall]
            rfl
          simp only [hseg, ok_bind] at hinside ⊢
          have hrun := ih (h.reply hcall) (fun hnone => hinside (by rw [hnone]; rfl))
          rw [← hrun]
          cases CodeBuffer.replies buf₁ calls <;> rfl

end Refinement

/-- Up to the first read over the end of the code, the answers are those of
the segment, with the same end, and nothing the allocator has shows in them. -/
theorem replies_refine (calls : List ((ℕ → UInt8) × Call))
    (hinside : Segment.empty.replies (calls.map Prod.snd) ≠ .error .invalidAccess) :
    (replies createCodeBuffer calls).map observe =
      Segment.empty.replies (calls.map Prod.snd) :=
  sound_create.replies hinside

theorem replies_refine_overlap :
    (replies createCodeBuffer [(fun _ => 0xA5, .add (.int 0x11223344)),
        (fun _ => 0x5A, .add (.long 0x0102030405060708)), (fun _ => 0, .read .short),
        (fun _ => 0, .setCodeIndex 3), (fun _ => 0, .read .short),
        (fun _ => 0, .setCodeIndex 12)]).map observe = .error .fatal ∧
    (replies createCodeBuffer [(fun _ => 0xA5, .add (.int 0x11223344)),
        (fun _ => 0x5A, .add (.long 0x0102030405060708)), (fun _ => 0, .setCodeIndex 3),
        (fun _ => 0, .read .short), (fun _ => 0, .readIdx .int 1)]).map observe =
      .ok ([.length 4, .length 12, .done, .value (.short 0x0811), .value (.int 0x08112233)],
        ⟨[0x44, 0x33, 0x22, 0x11, 8, 7, 6, 5, 4, 3, 2, 1], 5⟩) := by
  constructor
  · rw [replies_refine _ (by decide)]
    decide
  · rw [replies_refine _ (by decide)]
    decide

end SimpleVm.CodeBuffer
