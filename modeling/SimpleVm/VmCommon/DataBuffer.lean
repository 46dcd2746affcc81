import SimpleVm.Common.PointerList
import SimpleVm.Common.StringLaw
import SimpleVm.VmCommon.DataItem

/-!
# The data buffer

A pointer list of data items. `append_data_buffer` gets a finished item and
makes an unsigned one from it, reading the tag of the item as the number.
-/

namespace SimpleVm

/-- A number in the union. The model has no number for a pointer there. -/
def DataItem.word : DataItem → Option UInt32
  | .integer ival => some ival.toUInt32
  | .unsigned uval => some uval
  | .float fval => some fval
  | .string _ => none

/-- The string the union points to. A number there points to none. -/
def DataItem.sval : DataItem → Option StringRef
  | .string sval => some sval
  | _ => none

abbrev DataBuffer := PointerList DataItem

namespace DataBuffer

/-- What the allocator decides: the bytes behind a reallocated string, the
pointers behind the reallocated list, and the address of a string's characters. -/
structure Memory where
  bytes : ℕ → UInt8
  pointers : ℕ → Option DataItem
  addr : UInt64

variable (memory : Memory) (data : DataBuffer)

def createDataBuffer : DataBuffer := PointerList.createPtrList

/-- `*val` is read through an `unsigned*`, so it is the tag. -/
def appendDataBuffer (val : Option DataItem) : Except Halt (ℤ × DataBuffer) := do
  let item :=
    match val with
    | some val => DataItem.createUvalItem (some val.type.code)
    | none => DataItem.createUvalItem none
  let data ← data.appendPtrList memory.pointers (some item)
  .ok (data.lenPtrList - 1, data)

def addUnsignedData (val : UInt32) : Except Halt (ℤ × DataBuffer) :=
  appendDataBuffer memory data (some (DataItem.createUvalItem (some val)))

def addIntData (val : Int32) : Except Halt (ℤ × DataBuffer) :=
  appendDataBuffer memory data (some (DataItem.createIvalItem (some val)))

def addFloatData (val : UInt32) : Except Halt (ℤ × DataBuffer) :=
  appendDataBuffer memory data (some (DataItem.createFvalItem (some val)))

def addStringData (str : CString) : Except Halt (ℤ × DataBuffer) := do
  let item ← DataItem.createSvalItem memory.bytes memory.addr str
  appendDataBuffer memory data (some item)

def getDataItem (index : ℤ) : Except Halt (Option DataItem) := data.indexPtrList index

/-- `get_data_item(index)->data`. -/
def getData (index : ℤ) : Except Halt DataItem := do
  match ← getDataItem data index with
  | some item => .ok item
  | none => .error .invalidAccess

def getIntData (index : ℤ) : Except Halt (Option Int32) := do
  let item ← getData data index
  .ok (item.word.map Int32.ofUInt32)

def getUnsignedData (index : ℤ) : Except Halt (Option UInt32) := do
  let item ← getData data index
  .ok item.word

def getFloatData (index : ℤ) : Except Halt (Option UInt32) := do
  let item ← getData data index
  .ok item.word

def getStringData (index : ℤ) : Except Halt (Option StringRef) := do
  let item ← getData data index
  .ok item.sval

/-- What any appended item turns into. -/
def rewrapped (val : Option DataItem) : DataItem :=
  DataItem.createUvalItem (val.map fun item => item.type.code)

theorem appendDataBuffer_eq (val : Option DataItem) :
    appendDataBuffer memory data val = (do
      let data ← data.appendPtrList memory.pointers (some (rewrapped val))
      .ok (data.lenPtrList - 1, data)) := by
  cases val <;> rfl

variable {memory data}
variable {elems : List (Option DataItem)}

theorem exists_append (memory : Memory) (h : data.Holds elems) (hroom : elems.length < 2 ^ 30)
    (val : Option DataItem) :
    ∃ data', appendDataBuffer memory data val = .ok ((elems.length : ℤ), data') ∧
      data'.Holds (elems ++ [some (rewrapped val)]) := by
  obtain ⟨data', hrun, hheld⟩ := h.appendPtrList hroom memory.pointers (some (rewrapped val))
  refine ⟨data', ?_, hheld⟩
  rw [appendDataBuffer_eq, hrun, ok_bind, hheld.lenPtrList, List.length_append,
    List.length_singleton, Nat.cast_add, Nat.cast_one, add_sub_cancel_right]

theorem append_eq_ok {val : Option DataItem} {r : ℤ} {data' : DataBuffer}
    (h : data.Holds elems) (hrun : appendDataBuffer memory data val = .ok (r, data')) :
    elems.length < 2 ^ 30 ∧ r = elems.length ∧ data'.Holds (elems ++ [some (rewrapped val)]) := by
  have hroom : elems.length < 2 ^ 30 := by
    simp only [appendDataBuffer_eq, bind_eq_ok] at hrun
    obtain ⟨lst, hlst, -⟩ := hrun
    exact h.room_of_ok hlst
  obtain ⟨next, hnext, hheld⟩ := exists_append memory h hroom val
  obtain ⟨rfl, rfl⟩ := Prod.mk.inj (Except.ok.inj (hrun.symm.trans hnext))
  exact ⟨hroom, rfl, hheld⟩

theorem getData_eq {item : DataItem} {i : ℕ} (h : data.Holds elems)
    (hi : elems[i]? = some (some item)) : getData data i = .ok item := by
  obtain ⟨hlt, hget⟩ := List.getElem?_eq_some_iff.mp hi
  rw [getData, getDataItem, h.indexPtrList hlt, hget]
  rfl

theorem getDataItem_eq {item : DataItem} {i : ℕ} (h : data.Holds elems)
    (hi : elems[i]? = some (some item)) : getDataItem data i = .ok (some item) := by
  obtain ⟨hlt, hget⟩ := List.getElem?_eq_some_iff.mp hi
  rw [getDataItem, h.indexPtrList hlt, hget]

end DataBuffer

end SimpleVm
