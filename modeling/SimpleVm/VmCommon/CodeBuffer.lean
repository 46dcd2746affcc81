import Mathlib.Data.Nat.Bits
import SimpleVm.Common.Errors
import SimpleVm.Lib.Block
import SimpleVm.Lib.LittleEndian
import SimpleVm.Lib.RepeatUntil

/-!
# The code buffer

The three counters are `unsigned int` and wrap around; sizes are added in
`size_t`, which does not. Values are stored and read through pointers into
the block, in the byte order of the host, which is little-endian. What a
reallocated block holds behind the old bytes is up to the allocator.
-/

namespace SimpleVm

structure CodeBuffer where
  code : List UInt8
  len : ℕ
  cap : ℕ
  index : ℕ
  deriving DecidableEq

def uint (n : ℕ) : ℕ := n % 2 ^ 32

namespace CodeBuffer

def createCodeBuffer : CodeBuffer where
  code := List.replicate 8 0
  len := 0
  cap := 8
  index := 0

/-- The macro `RESIZE`. After 32 shifts the capacity is zero for good. -/
def resize (fresh : ℕ → UInt8) (size : ℕ) (buf : CodeBuffer) : Except Halt CodeBuffer :=
  if buf.cap < buf.len + size then
    match repeatUntil (fun cap => uint (2 * cap)) (fun cap => decide (buf.len + size ≤ cap))
        33 buf.cap with
    | some cap => .ok { buf with cap := cap, code := Block.grow fresh buf.code cap }
    | none => .error .diverges
  else .ok buf

def addCode (fresh : ℕ → UInt8) (size val : ℕ) (buf : CodeBuffer) :
    Except Halt (ℕ × CodeBuffer) := do
  let buf ← resize fresh size buf
  match Block.store? buf.code buf.len (LittleEndian.encode size val) with
  | some code =>
      let len := uint (buf.len + size)
      .ok (len, { buf with code := code, len := len })
  | none => .error .invalidAccess

def readCode (size : ℕ) (buf : CodeBuffer) : Except Halt (ℕ × CodeBuffer) :=
  match Block.load? buf.code buf.index size with
  | some cells =>
      .ok (LittleEndian.decode cells, { buf with index := uint (buf.index + size) })
  | none => .error .invalidAccess

def readCodeIdx (size idx : ℕ) (buf : CodeBuffer) : Except Halt ℕ :=
  if idx < buf.len then
    match Block.load? buf.code idx size with
    | some cells => .ok (LittleEndian.decode cells)
    | none => .error .invalidAccess
  else .error .fatal

section Members

variable (fresh : ℕ → UInt8) (buf : CodeBuffer)

def addCodeChar (val : UInt8) := addCode fresh 1 val.toNat buf

def addCodeShort (val : UInt16) := addCode fresh 2 val.toNat buf

def addCodeInt (val : UInt32) := addCode fresh 4 val.toNat buf

def addCodeLong (val : UInt64) := addCode fresh 8 val.toNat buf

def readCodeChar : Except Halt (UInt8 × CodeBuffer) := do
  let (val, buf) ← readCode 1 buf
  .ok (UInt8.ofNat val, buf)

def readCodeShort : Except Halt (UInt16 × CodeBuffer) := do
  let (val, buf) ← readCode 2 buf
  .ok (UInt16.ofNat val, buf)

def readCodeInt : Except Halt (UInt32 × CodeBuffer) := do
  let (val, buf) ← readCode 4 buf
  .ok (UInt32.ofNat val, buf)

def readCodeLong : Except Halt (UInt64 × CodeBuffer) := do
  let (val, buf) ← readCode 8 buf
  .ok (UInt64.ofNat val, buf)

def readCodeCharIdx (idx : ℕ) : Except Halt UInt8 := do
  let val ← readCodeIdx 1 idx buf
  .ok (UInt8.ofNat val)

def readCodeShortIdx (idx : ℕ) : Except Halt UInt16 := do
  let val ← readCodeIdx 2 idx buf
  .ok (UInt16.ofNat val)

def readCodeIntIdx (idx : ℕ) : Except Halt UInt32 := do
  let val ← readCodeIdx 4 idx buf
  .ok (UInt32.ofNat val)

def readCodeLongIdx (idx : ℕ) : Except Halt UInt64 := do
  let val ← readCodeIdx 8 idx buf
  .ok (UInt64.ofNat val)

end Members

def resetCodeIndex (buf : CodeBuffer) : CodeBuffer := { buf with index := 0 }

def setCodeIndex (idx : ℕ) (buf : CodeBuffer) : Except Halt CodeBuffer :=
  if idx < buf.len then .ok { buf with index := idx } else .error .fatal

/-! ## The four widths as one family -/

inductive Width where
  | char
  | short
  | int
  | long
  deriving DecidableEq

def Width.size : Width → ℕ
  | .char => 1
  | .short => 2
  | .int => 4
  | .long => 8

/-- A value of one of the four unsigned types. -/
inductive Item where
  | char (val : UInt8)
  | short (val : UInt16)
  | int (val : UInt32)
  | long (val : UInt64)
  deriving DecidableEq

namespace Item

def width : Item → Width
  | .char _ => .char
  | .short _ => .short
  | .int _ => .int
  | .long _ => .long

def toNat : Item → ℕ
  | .char val => val.toNat
  | .short val => val.toNat
  | .int val => val.toNat
  | .long val => val.toNat

def ofNat : Width → ℕ → Item
  | .char, n => .char (UInt8.ofNat n)
  | .short, n => .short (UInt16.ofNat n)
  | .int, n => .int (UInt32.ofNat n)
  | .long, n => .long (UInt64.ofNat n)

@[simp] theorem ofNat_toNat (item : Item) : ofNat item.width item.toNat = item := by
  cases item <;> simp [ofNat, width, toNat]

theorem toNat_lt (item : Item) : item.toNat < 256 ^ item.width.size := by
  cases item with
  | char val => exact val.toNat_lt
  | short val => exact val.toNat_lt
  | int val => exact val.toNat_lt
  | long val => exact val.toNat_lt

def bytes (item : Item) : List UInt8 := LittleEndian.encode item.width.size item.toNat

@[simp] theorem length_bytes (item : Item) : item.bytes.length = item.width.size :=
  LittleEndian.length_encode _ _

theorem decode_bytes (item : Item) : ofNat item.width (LittleEndian.decode item.bytes) = item := by
  rw [bytes, LittleEndian.decode_encode item.toNat_lt, ofNat_toNat]

end Item

def add (fresh : ℕ → UInt8) (buf : CodeBuffer) : Item → Except Halt (ℕ × CodeBuffer)
  | .char val => addCodeChar fresh buf val
  | .short val => addCodeShort fresh buf val
  | .int val => addCodeInt fresh buf val
  | .long val => addCodeLong fresh buf val

def read (buf : CodeBuffer) : Width → Except Halt (Item × CodeBuffer)
  | .char => do
      let (val, buf) ← readCodeChar buf
      .ok (.char val, buf)
  | .short => do
      let (val, buf) ← readCodeShort buf
      .ok (.short val, buf)
  | .int => do
      let (val, buf) ← readCodeInt buf
      .ok (.int val, buf)
  | .long => do
      let (val, buf) ← readCodeLong buf
      .ok (.long val, buf)

def readIdx (buf : CodeBuffer) (idx : ℕ) : Width → Except Halt Item
  | .char => do
      let val ← readCodeCharIdx buf idx
      .ok (.char val)
  | .short => do
      let val ← readCodeShortIdx buf idx
      .ok (.short val)
  | .int => do
      let val ← readCodeIntIdx buf idx
      .ok (.int val)
  | .long => do
      let val ← readCodeLongIdx buf idx
      .ok (.long val)

theorem add_eq (fresh : ℕ → UInt8) (buf : CodeBuffer) (item : Item) :
    buf.add fresh item = addCode fresh item.width.size item.toNat buf := by
  cases item <;> rfl

theorem read_eq (buf : CodeBuffer) (w : Width) :
    buf.read w = readCode w.size buf >>= fun r => .ok (Item.ofNat w r.1, r.2) := by
  cases w with
  | char => cases h : readCode 1 buf <;> simp [read, readCodeChar, Width.size, Item.ofNat, h]
  | short => cases h : readCode 2 buf <;> simp [read, readCodeShort, Width.size, Item.ofNat, h]
  | int => cases h : readCode 4 buf <;> simp [read, readCodeInt, Width.size, Item.ofNat, h]
  | long => cases h : readCode 8 buf <;> simp [read, readCodeLong, Width.size, Item.ofNat, h]

theorem readIdx_eq (buf : CodeBuffer) (idx : ℕ) (w : Width) :
    buf.readIdx idx w = readCodeIdx w.size idx buf >>= fun n => .ok (Item.ofNat w n) := by
  cases w with
  | char =>
      cases h : readCodeIdx 1 idx buf <;>
        simp [readIdx, readCodeCharIdx, Width.size, Item.ofNat, h]
  | short =>
      cases h : readCodeIdx 2 idx buf <;>
        simp [readIdx, readCodeShortIdx, Width.size, Item.ofNat, h]
  | int =>
      cases h : readCodeIdx 4 idx buf <;>
        simp [readIdx, readCodeIntIdx, Width.size, Item.ofNat, h]
  | long =>
      cases h : readCodeIdx 8 idx buf <;>
        simp [readIdx, readCodeLongIdx, Width.size, Item.ofNat, h]

end CodeBuffer

end SimpleVm
