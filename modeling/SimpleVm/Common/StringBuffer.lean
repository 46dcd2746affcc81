import SimpleVm.Common.CString
import SimpleVm.Common.Errors
import SimpleVm.Lib.Block
import SimpleVm.Lib.RepeatUntil

/-!
# The string buffer

A `string_t` owns a block of `cap` bytes and counts the characters before
the terminator. The C library functions work on the block: `strlen` and
`strcat` look for the first NUL, and a write behind the block is an error of
the model. Lengths and capacities are `int`, so the doubling loop wraps.
-/

namespace SimpleVm

structure StringT where
  buffer : List UInt8
  len : ℕ
  cap : ℕ
  deriving DecidableEq

/-- The conversion `(char)ch`, as a byte. -/
def charOf (ch : ℤ) : UInt8 := UInt8.ofNat (ch % 256).toNat

def strlenBlock (block : List UInt8) : Except Halt ℕ :=
  if 0 ∈ block then .ok (CString.read block).strlen else .error .invalidAccess

def writeBlock (block : List UInt8) (i : ℕ) (cells : List UInt8) : Except Halt (List UInt8) :=
  match Block.store? block i cells with
  | some block => .ok block
  | none => .error .invalidAccess

def strcat (block : List UInt8) (str : CString) : Except Halt (List UInt8) := do
  let n ← strlenBlock block
  writeBlock block n (str.bytes ++ [0])

namespace StringT

/-- `while(need > cap) cap <<= 1;` on an `int`. -/
def doubleCap (need : ℤ) (cap : ℕ) : Except Halt ℕ :=
  match repeatUntil (fun c => toInt (2 * c)) (fun c => decide (need ≤ c)) 33 (cap : ℤ) with
  | some c => .ok c.toNat
  | none => .error .diverges

def makeRoom (fresh : ℕ → UInt8) (buf : StringT) (need : ℤ) : Except Halt StringT :=
  if (buf.cap : ℤ) < need then do
    let cap ← doubleCap need buf.cap
    .ok { buf with cap := cap, buffer := Block.grow fresh buf.buffer cap }
  else .ok buf

def appendString (fresh : ℕ → UInt8) (buf : StringT) (str : CString) : Except Halt StringT := do
  let len := toInt str.strlen
  let buf ← makeRoom fresh buf (toInt (len + buf.len + 1))
  let buffer ← strcat buf.buffer str
  let len ← strlenBlock buffer
  .ok { buf with buffer := buffer, len := len }

/-- A capacity doubled past the range of `int` asks for more bytes than there can be. -/
def makeRoomChar (fresh : ℕ → UInt8) (buf : StringT) : Except Halt StringT :=
  if buf.cap < buf.len + 1 then
    if 2 ^ 30 ≤ buf.cap then .error .fatal
    else .ok { buf with cap := 2 * buf.cap, buffer := Block.grow fresh buf.buffer (2 * buf.cap) }
  else .ok buf

def appendStringChar (fresh : ℕ → UInt8) (buf : StringT) (ch : ℤ) : Except Halt StringT := do
  let buf ← makeRoomChar fresh buf
  let buffer ← writeBlock buf.buffer buf.len [charOf ch]
  let len := buf.len + 1
  let buffer ← writeBlock buffer len [0]
  .ok { buf with buffer := buffer, len := len }

def appendStringStr (fresh : ℕ → UInt8) (buf str : StringT) : Except Halt StringT :=
  appendString fresh buf (CString.read str.buffer)

def clearString (buf : StringT) : Except Halt StringT := do
  let buffer ← writeBlock buf.buffer 0 [0]
  .ok { buf with len := 0, buffer := buffer }

def createString (fresh : ℕ → UInt8) (str : Option CString) : Except Halt StringT :=
  let ptr : StringT := ⟨List.replicate 8 0, 0, 8⟩
  match str with
  | some str => appendString fresh ptr str
  | none => .ok ptr

def rawString (str : StringT) : CString := CString.read str.buffer

def copyString (fresh : ℕ → UInt8) (buf : StringT) : Except Halt StringT :=
  createString fresh (some buf.rawString)

end StringT

end SimpleVm
