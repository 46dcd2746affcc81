import SimpleVm.Common.StringBuffer
import SimpleVm.Lib.LittleEndian

/-!
# Data items

A tagged value of four kinds. The tag is an `enum` of four bytes at the start
of the struct and the union follows it; a `float` is its 32-bit pattern. Files
hold tag and payload in the byte order of the host.
-/

namespace SimpleVm

inductive DataType where
  | integer
  | unsigned
  | float
  | string
  deriving DecidableEq

def DataType.code : DataType → UInt32
  | .integer => 0
  | .unsigned => 1
  | .float => 2
  | .string => 3

/-- A `string_t` with the address in its `buffer` field. -/
structure StringRef where
  str : StringT
  addr : UInt64
  deriving DecidableEq

/-- The sixteen bytes of the struct itself: the pointer, `len` and `cap`. -/
def StringRef.header (s : StringRef) : List UInt8 :=
  LittleEndian.encode 8 s.addr.toNat ++ LittleEndian.encode 4 s.str.len ++
    LittleEndian.encode 4 s.str.cap

inductive DataItem where
  | integer (ival : Int32)
  | unsigned (uval : UInt32)
  | float (fval : UInt32)
  | string (sval : StringRef)
  deriving DecidableEq

/-- The truncated magnitude of a finite `float`. -/
def truncFloat (bits : UInt32) : ℕ :=
  let exponent := bits.toNat / 2 ^ 23 % 2 ^ 8
  if exponent < 127 then 0
  else (2 ^ 23 + bits.toNat % 2 ^ 23) * 2 ^ (exponent - 127) / 2 ^ 23

/-- `(unsigned)f`. Outside the range of `unsigned`, where the language defines
nothing, it is the conversion through 64 bits that the host makes. -/
def floatToUnsigned (bits : UInt32) : UInt32 :=
  let magnitude := truncFloat bits
  if 2 ^ 63 ≤ magnitude then 0
  else if bits.toNat < 2 ^ 31 then UInt32.ofNat magnitude
  else 0 - UInt32.ofNat magnitude

namespace DataItem

def type : DataItem → DataType
  | .integer _ => .integer
  | .unsigned _ => .unsigned
  | .float _ => .float
  | .string _ => .string

def createSvalItem (fresh : ℕ → UInt8) (addr : UInt64) (val : CString) : Except Halt DataItem := do
  let sval ← StringT.createString fresh (some val)
  .ok (.string ⟨sval, addr⟩)

def createSvalTItem (fresh : ℕ → UInt8) (addr : UInt64) (val : StringT) : Except Halt DataItem := do
  let sval ← StringT.copyString fresh val
  .ok (.string ⟨sval, addr⟩)

def createIvalItem (val : Option Int32) : DataItem := .integer (val.getD 0)

def createUvalItem (val : Option UInt32) : DataItem := .unsigned (val.getD 0)

/-- The source assigns to `uval`, which converts the number and not its bits. -/
def createFvalItem (val : Option UInt32) : DataItem :=
  .float ((val.map floatToUnsigned).getD 0)

/-! ## Files -/

/-- `fread` into an object that holds `old`: what the file no longer has keeps its bytes. -/
def fread (old input : List UInt8) : List UInt8 × List UInt8 :=
  let got := input.take old.length
  (got ++ old.drop got.length, input.drop old.length)

/-- The characters are written from `&sval->buffer`, the pointer itself, not
from where it points to; more of them than the struct has bytes are a read
outside it. -/
def saveDataItem (data : DataItem) : Except Halt (List UInt8) :=
  let type := LittleEndian.encode 4 data.type.code.toNat
  match data with
  | .integer ival => .ok (type ++ LittleEndian.encode 4 ival.toUInt32.toNat)
  | .unsigned uval => .ok (type ++ LittleEndian.encode 4 uval.toNat)
  | .float fval => .ok (type ++ LittleEndian.encode 4 fval.toNat)
  | .string sval =>
      if sval.header.length < sval.str.len then .error .invalidAccess
      else .ok (type ++ LittleEndian.encode 4 sval.str.len ++ sval.header.take sval.str.len)

/-- What the loader finds in memory that it does not write itself. -/
structure LoadEnv where
  fresh : ℕ → UInt8
  /-- the local variable `len` before it is read -/
  garbage : UInt32
  /-- the address of the buffer of the `i`-th string -/
  addr : ℕ → UInt64

/-- What follows the tag of a string. -/
def loadString (env : LoadEnv) (i : ℕ) (input : List UInt8) :
    Except Halt (DataItem × List UInt8) :=
  let (len, input) := fread (LittleEndian.encode 4 env.garbage.toNat) input
  let len := toInt (LittleEndian.decode len)
  -- `len + 1` as a size: no allocation serves a negative one
  if len < -1 ∨ len = 2 ^ 31 - 1 then .error .fatal
  else if len = -1 then .error .invalidAccess
  else do
    let (str, input) := fread (List.replicate len.toNat 0) input
    let sval ← StringT.createString env.fresh (some (CString.read (str ++ [0])))
    .ok (.string ⟨sval, env.addr i⟩, input)

def loadDataItem (env : LoadEnv) (i : ℕ) (input : List UInt8) :
    Except Halt (DataItem × List UInt8) :=
  let zero := List.replicate 4 0
  let (type, input) := fread zero input
  match LittleEndian.decode type with
  | 0 =>
      let (ival, input) := fread zero input
      .ok (.integer (Int32.ofUInt32 (UInt32.ofNat (LittleEndian.decode ival))), input)
  | 1 =>
      let (uval, input) := fread zero input
      .ok (.unsigned (UInt32.ofNat (LittleEndian.decode uval)), input)
  | 2 =>
      let (fval, input) := fread zero input
      .ok (.float (UInt32.ofNat (LittleEndian.decode fval)), input)
  | 3 => loadString env i input
  | _ => .error .fatal

/-- `save_data_item` on each item in order, as the bytes of the file. -/
def saveDataItems : List DataItem → Except Halt (List UInt8)
  | [] => .ok []
  | data :: items => do
      let head ← saveDataItem data
      let tail ← saveDataItems items
      .ok (head ++ tail)

def loadDataItems (env : LoadEnv) : ℕ → List UInt8 → Except Halt (List DataItem × List UInt8)
  | 0, input => .ok ([], input)
  | n + 1, input => do
      let (data, input) ← loadDataItem env n input
      let (items, input) ← loadDataItems env n input
      .ok (data :: items, input)

end DataItem

end SimpleVm
