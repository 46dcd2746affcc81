import SimpleVm.Common.Errors
import SimpleVm.Lib.Block

/-!
# Arrays of items

The items of an array lie one behind the other in a block of bytes. A pointer
into the block is given by the position of the item it points to, which may be
outside. What the allocator puts behind the old bytes of a grown block is
unspecified, and so may be what is read behind the end of a block.
-/

namespace SimpleVm

/-- How a call on an array ends when it does not return. -/
inductive ArrayHalt where
  /-- `error`: a message on stderr, then `exit(1)`. -/
  | indexError
  /-- A read or a write outside the block, or a call through `NULL`. -/
  | invalidAccess
  /-- A value that an `int` cannot hold. -/
  | overflow
  /-- A loop of the source that is never left. -/
  | diverges
  /-- `FATAL`, where the allocator returns `NULL`. -/
  | fatal
  deriving DecidableEq, Repr

/-- `comp` may be `NULL`; the length of an array may become negative. -/
structure ArrayT where
  buffer : List UInt8
  capacity : ℕ
  length : ℤ
  size : ℕ
  comp : Option (List UInt8 → List UInt8 → ℤ)
  isSorted : Bool

/-- With no `past` it is an error to read behind the end of a block. -/
structure Unspecified where
  fresh : ArrayT → ℕ → UInt8
  past : Option (ArrayT → ℕ → UInt8)

namespace ArrayT

def int (n : ℤ) : Except ArrayHalt ℤ :=
  if -2 ^ 31 ≤ n ∧ n < 2 ^ 31 then .ok n else .error .overflow

/-- A value of an `int` that is never negative. -/
def nat (n : ℕ) : Except ArrayHalt ℕ := if n < 2 ^ 31 then .ok n else .error .overflow

def normalizeReadIndex (arr : ArrayT) (index : ℤ) : Except ArrayHalt ℤ :=
  if index < 0 then
    if index = -1 then int (arr.length - 1) else int (arr.length + index)
  else if 0 ≤ index ∧ index ≤ arr.length then .ok index
  else .error .indexError

def normalizeWriteIndex (arr : ArrayT) (index : ℤ) : Except ArrayHalt ℤ :=
  if index < 0 then
    if index = -1 then .ok arr.length else int (arr.length + (index + 1))
  else if 0 ≤ index ∧ index ≤ arr.length then .ok index
  else .error .indexError

def byteOffset (arr : ArrayT) (index : ℤ) : Except ArrayHalt ℤ := int (arr.size * index)

def tailLength (arr : ArrayT) (index : ℤ) : Except ArrayHalt ℤ := do
  let n ← int (arr.length - index)
  int (n * arr.size)

/-- The shifts of the capacity; from a positive one there are at most 31. -/
def doubled : ℕ → ℤ → ℕ → Except ArrayHalt ℕ
  | 0, _, _ => .error .diverges
  | shifts + 1, needed, capacity =>
      if needed ≤ capacity then .ok capacity
      else do
        let capacity ← nat (2 * capacity)
        doubled shifts needed capacity

/-- A block of no bytes is given back, and there is none in its place. -/
def memRealloc (fresh : ℕ → UInt8) (block : List UInt8) (bytes : ℕ) :
    Except ArrayHalt (List UInt8) :=
  if bytes = 0 then .error .fatal else .ok (Block.grow fresh block bytes)

def resize (u : Unspecified) (arr : ArrayT) (size : ℤ) : Except ArrayHalt ArrayT := do
  let needed ← int (arr.length + size)
  if needed ≤ arr.capacity then .ok arr
  else do
    let capacity ← doubled 32 needed arr.capacity
    let bytes ← nat (arr.size * capacity)
    let buffer ← memRealloc (u.fresh arr) arr.buffer bytes
    .ok { arr with capacity := capacity, buffer := buffer }

/-! ## Copying -/

/-- `n` bytes from `off` on; to copy no bytes is no access. -/
def load (u : Unspecified) (arr : ArrayT) (off n : ℤ) : Except ArrayHalt (List UInt8) :=
  if n = 0 then .ok []
  else if off < 0 ∨ n < 0 then .error .invalidAccess
  else
    match Block.load? arr.buffer off.toNat n.toNat, u.past with
    | some bytes, _ => .ok bytes
    | none, some past =>
        .ok ((Block.grow (past arr) arr.buffer (off + n).toNat).drop off.toNat)
    | none, none => .error .invalidAccess

def store (arr : ArrayT) (off : ℤ) (bytes : List UInt8) : Except ArrayHalt ArrayT :=
  if bytes.isEmpty then .ok arr
  else if off < 0 then .error .invalidAccess
  else
    match Block.store? arr.buffer off.toNat bytes with
    | some buffer => .ok { arr with buffer := buffer }
    | none => .error .invalidAccess

/-- Copying in one array, where the two places may overlap. -/
def copyWithin (u : Unspecified) (arr : ArrayT) (dest src n : ℤ) : Except ArrayHalt ArrayT := do
  let dest ← byteOffset arr dest
  let src ← byteOffset arr src
  let bytes ← load u arr src n
  store arr dest bytes

def readItem (u : Unspecified) (arr : ArrayT) (pos : ℤ) : Except ArrayHalt (List UInt8) := do
  let off ← byteOffset arr pos
  load u arr off arr.size

def writeItem (arr : ArrayT) (pos : ℤ) (item : List UInt8) : Except ArrayHalt ArrayT := do
  let off ← byteOffset arr pos
  store arr off item

/-- The item at a pointer of the caller. -/
def itemAt (size : ℕ) (data : ℕ → UInt8) : List UInt8 := (List.range size).map data

/-! ## The public functions -/

def createArray (size : ℕ) (comp : Option (List UInt8 → List UInt8 → ℤ)) :
    Except ArrayHalt ArrayT := do
  let size ← nat size
  let bytes ← nat (8 * size)
  .ok ⟨List.replicate bytes 0, 8, 0, size, comp, false⟩

/-- `src` finds the source, which is the array itself when that is inserted into itself. -/
def insertArray (u : Unspecified) (dest : ArrayT) (src : ArrayT → ArrayT) (index : ℤ) :
    Except ArrayHalt ArrayT := do
  let idx ← normalizeWriteIndex dest index
  let dest ← resize u dest (src dest).length
  let behind ← int (idx + (src dest).length)
  let tail ← tailLength dest idx
  let dest ← copyWithin u dest behind idx tail
  let off ← byteOffset dest idx
  let start ← byteOffset (src dest) 0
  let n ← tailLength (src dest) 0
  let bytes ← load u (src dest) start n
  let dest ← store dest off bytes
  let length ← int (dest.length + (src dest).length)
  .ok { dest with length := length, isSorted := false }

def appendArray (u : Unspecified) (dest : ArrayT) (src : ArrayT → ArrayT) :
    Except ArrayHalt ArrayT := do
  let dest ← resize u dest (src dest).length
  let off ← byteOffset dest dest.length
  let start ← byteOffset (src dest) 0
  let n ← tailLength (src dest) 0
  let bytes ← load u (src dest) start n
  let dest ← store dest off bytes
  let length ← int (dest.length + (src dest).length)
  .ok { dest with length := length, isSorted := false }

def clearArray (u : Unspecified) (arr : ArrayT) : Except ArrayHalt ArrayT := do
  let bytes ← nat (arr.size * 8)
  let buffer ← memRealloc (u.fresh arr) arr.buffer bytes
  .ok { arr with length := 0, capacity := 8, buffer := buffer, isSorted := false }

def appendArrayData (u : Unspecified) (arr : ArrayT) (data : ℕ → UInt8) :
    Except ArrayHalt ArrayT := do
  let arr ← resize u arr 1
  let arr ← writeItem arr arr.length (itemAt arr.size data)
  let length ← int (arr.length + 1)
  .ok { arr with length := length, isSorted := false }

/-- The index of what is to go is read as that of a place to write to. -/
def deleteArrayData (u : Unspecified) (arr : ArrayT) (index : ℤ) : Except ArrayHalt ArrayT := do
  let idx ← normalizeWriteIndex arr index
  let next ← int (idx + 1)
  let tail ← tailLength arr idx
  let arr ← copyWithin u arr idx next tail
  let length ← int (arr.length - 1)
  .ok { arr with length := length, isSorted := false }

def insertArrayData (u : Unspecified) (arr : ArrayT) (data : ℕ → UInt8) (index : ℤ) :
    Except ArrayHalt ArrayT := do
  let idx ← normalizeWriteIndex arr index
  let arr ← resize u arr 1
  let next ← int (idx + 1)
  let tail ← tailLength arr idx
  let arr ← copyWithin u arr next idx tail
  let arr ← writeItem arr idx (itemAt arr.size data)
  let length ← int (arr.length + 1)
  .ok { arr with length := length, isSorted := false }

def lenArray (arr : ArrayT) : ℤ := arr.length

def indexArrayData (arr : ArrayT) (index : ℤ) : Except ArrayHalt (Option ℤ) :=
  if 0 < arr.lenArray then do
    let idx ← normalizeReadIndex arr index
    let _ ← byteOffset arr idx
    .ok (some idx)
  else .ok none

def iterateArrayData (arr : ArrayT) (post : ℤ) : Except ArrayHalt (Option ℤ × ℤ) :=
  if post < arr.length then do
    let retv ← indexArrayData arr post
    let post ← int (post + 1)
    .ok (retv, post)
  else .ok (none, post)

def swapArrayData (u : Unspecified) (arr : ArrayT) (idx1 idx2 : ℤ) : Except ArrayHalt ArrayT := do
  let i1 ← normalizeReadIndex arr idx1
  let i2 ← normalizeReadIndex arr idx2
  let tmp ← readItem u arr i1
  let arr ← copyWithin u arr i1 i2 arr.size
  let arr ← writeItem arr i2 tmp
  .ok { arr with isSorted := false }

def pushArray (u : Unspecified) (arr : ArrayT) (data : ℕ → UInt8) : Except ArrayHalt ArrayT :=
  appendArrayData u arr data

/-- The pointer is to the byte at this offset, not to the last item. -/
def popArray (arr : ArrayT) : Option ℤ × ArrayT :=
  if 0 < arr.length then (some (arr.length - 1), { arr with length := arr.length - 1 })
  else (none, arr)

def peekArray (arr : ArrayT) : Option ℤ :=
  if 0 < arr.length then some (arr.length - 1) else none

/-! ## Sorting and searching -/

def sortRound (u : Unspecified) (arr : ArrayT) (i : ℕ) : Except ArrayHalt ArrayT := do
  let left ← readItem u arr i
  let right ← readItem u arr (i + 1)
  match arr.comp with
  | none => .error .invalidAccess
  | some comp => if 0 < comp left right then swapArrayData u arr i (i + 1) else .ok arr

def sortPass (u : Unspecified) (arr : ArrayT) (step : ℕ) : Except ArrayHalt ArrayT :=
  (List.range (arr.length - step - 1).toNat).foldlM (sortRound u) arr

def sortArray (u : Unspecified) (arr : ArrayT) : Except ArrayHalt ArrayT := do
  let arr ← (List.range (arr.length - 1).toNat).foldlM (sortPass u) arr
  .ok { arr with isSorted := true }

def search (u : Unspecified) (arr : ArrayT) (comp : List UInt8 → List UInt8 → ℤ)
    (key : List UInt8) : ℕ → ℤ → ℤ → Except ArrayHalt ℤ
  | 0, _, _ => .error .diverges
  | fuel + 1, low, high =>
      if low ≤ high then do
        let mid := low + (high - low) / 2
        let item ← readItem u arr mid
        let val := comp key item
        if val = 0 then .ok mid
        else if 0 < val then search u arr comp key fuel (mid + 1) high
        else search u arr comp key fuel low (mid - 1)
      else .ok (-1)

/-- The array is sorted first where it has to be. -/
def findArrayIndex (u : Unspecified) (arr : ArrayT) (key : List UInt8) :
    Except ArrayHalt (ℤ × ArrayT) :=
  match arr.comp with
  | none => .ok (-1, arr)
  | some comp => do
      let arr ← if arr.isSorted then .ok arr else sortArray u arr
      let idx ← search u arr comp key (arr.length.toNat + 1) 0 (arr.length - 1)
      .ok (idx, arr)

def findArray (u : Unspecified) (arr : ArrayT) (key : List UInt8) :
    Except ArrayHalt (Option ℤ × ArrayT) := do
  let (idx, arr) ← findArrayIndex u arr key
  if 0 ≤ idx then do
    let pos ← indexArrayData arr idx
    .ok (pos, arr)
  else .ok (none, arr)

/-! ## Runs -/

/-- Calls on the arrays there are, which are numbered in the order they were created. -/
inductive Call where
  | create (size : ℕ) (comp : Option (List UInt8 → List UInt8 → ℤ))
  | insertArray (dest src : ℕ) (index : Int32)
  | appendArray (dest src : ℕ)
  | clear (n : ℕ)
  | sort (n : ℕ)
  | find (n : ℕ) (key : List UInt8)
  | append (n : ℕ) (data : ℕ → UInt8)
  | delete (n : ℕ) (index : Int32)
  | insert (n : ℕ) (data : ℕ → UInt8) (index : Int32)
  | iterate (n : ℕ) (post : Int32)
  | index (n : ℕ) (index : Int32)
  | swap (n : ℕ) (idx1 idx2 : Int32)
  | push (n : ℕ) (data : ℕ → UInt8)
  | pop (n : ℕ)
  | peek (n : ℕ)

/-- A pointer that a call hands out is to an item or, from the stack functions, to a byte. -/
inductive Answer where
  | done
  | item (pos : Option ℤ)
  | byte (off : Option ℤ)
  deriving DecidableEq

def arrayAt (pool : List ArrayT) (n : ℕ) : Except ArrayHalt ArrayT :=
  match pool[n]? with
  | some arr => .ok arr
  | none => .error .invalidAccess

def source (pool : List ArrayT) (dest src : ℕ) : Except ArrayHalt (ArrayT → ArrayT) :=
  if src = dest then .ok id
  else do
    let arr ← arrayAt pool src
    .ok fun _ => arr

/-- One array is changed. -/
def change (pool : List ArrayT) (n : ℕ) (f : ArrayT → Except ArrayHalt ArrayT) :
    Except ArrayHalt (Answer × List ArrayT) := do
  let arr ← arrayAt pool n
  let arr ← f arr
  .ok (.done, pool.set n arr)

def perform (u : Unspecified) (pool : List ArrayT) :
    Call → Except ArrayHalt (Answer × List ArrayT)
  | .create size comp => do
      let arr ← createArray size comp
      .ok (.done, pool ++ [arr])
  | .insertArray dest src index => do
      let src ← source pool dest src
      change pool dest fun arr => insertArray u arr src index.toInt
  | .appendArray dest src => do
      let src ← source pool dest src
      change pool dest fun arr => appendArray u arr src
  | .clear n => change pool n (clearArray u)
  | .sort n => change pool n (sortArray u)
  | .find n key => do
      let arr ← arrayAt pool n
      let (pos, arr) ← findArray u arr key
      .ok (.item pos, pool.set n arr)
  | .append n data => change pool n fun arr => appendArrayData u arr data
  | .delete n index => change pool n fun arr => deleteArrayData u arr index.toInt
  | .insert n data index => change pool n fun arr => insertArrayData u arr data index.toInt
  | .iterate n post => do
      let arr ← arrayAt pool n
      let (pos, _) ← iterateArrayData arr post.toInt
      .ok (.item pos, pool)
  | .index n index => do
      let arr ← arrayAt pool n
      let pos ← indexArrayData arr index.toInt
      .ok (.item pos, pool)
  | .swap n idx1 idx2 => change pool n fun arr => swapArrayData u arr idx1.toInt idx2.toInt
  | .push n data => change pool n fun arr => pushArray u arr data
  | .pop n => do
      let arr ← arrayAt pool n
      let (off, arr) := popArray arr
      .ok (.byte off, pool.set n arr)
  | .peek n => do
      let arr ← arrayAt pool n
      .ok (.byte (peekArray arr), pool)

def step (u : Unspecified) (pool : List ArrayT) (call : Call) : Except ArrayHalt (List ArrayT) := do
  let (_, pool) ← perform u pool call
  .ok pool

/-- The arrays after the calls, when there was none before. -/
def after (u : Unspecified) (calls : List Call) : Except ArrayHalt (List ArrayT) :=
  calls.foldlM (step u) []

theorem after_append (u : Unspecified) (calls : List Call) (call : Call) :
    after u (calls ++ [call]) = (after u calls >>= fun pool => step u pool call) := by
  rw [after, List.foldlM_append, ← after]
  congr 1
  funext pool
  rw [List.foldlM_cons]
  cases step u pool call <;> rfl

end ArrayT

end SimpleVm
