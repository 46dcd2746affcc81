import SimpleVm.Common.Errors

/-!
# Doubly linked lists with a cursor

The nodes lie on a heap and are linked by their addresses; `none` is `NULL`.
Going through `NULL` or through the address of a node that has been destroyed
is an invalid access.
-/

namespace SimpleVm

universe u

structure DlListNode (α : Type u) where
  data : α
  next : Option ℕ
  prev : Option ℕ

abbrev NodeHeap (α : Type u) := Heap (DlListNode α)

abbrev NodeAllocator (α : Type u) := Heap.Allocator (DlListNode α)

structure DlList where
  first : Option ℕ
  last : Option ℕ
  crnt : Option ℕ
  deriving DecidableEq

namespace DlList

variable {α : Type u}

def setNext (heap : NodeHeap α) (p next : Option ℕ) : Except Halt (NodeHeap α) :=
  match p with
  | none => .error .invalidAccess
  | some a => do
      let node ← deref heap p
      .ok (heap.put a (some { node with next := next }))

def setPrev (heap : NodeHeap α) (p prev : Option ℕ) : Except Halt (NodeHeap α) :=
  match p with
  | none => .error .invalidAccess
  | some a => do
      let node ← deref heap p
      .ok (heap.put a (some { node with prev := prev }))

/-- The list and the heap its nodes are on. -/
structure State (α : Type u) where
  heap : NodeHeap α
  lst : DlList

def createDlList : DlList := ⟨none, none, none⟩

/-- The memory of a new node is zeroed, and so are its links. -/
def createDlListNode (alloc : NodeAllocator α) (heap : NodeHeap α) (data : α) :
    ℕ × NodeHeap α :=
  (alloc.pick heap, heap.put (alloc.pick heap) (some ⟨data, none, none⟩))

def destroyDlListNode (heap : NodeHeap α) (node : ℕ) : Except Halt (NodeHeap α) := do
  let _ ← deref heap (some node)
  .ok (heap.put node none)

def appendDlList (st : State α) (node : ℕ) : Except Halt (State α) := do
  let heap ← setPrev st.heap (some node) st.lst.last
  match st.lst.last with
  | some last => do
      let heap ← setNext heap (some last) (some node)
      .ok ⟨heap, { st.lst with last := some node }⟩
  | none => .ok ⟨heap, { st.lst with crnt := some node, first := some node, last := some node }⟩

def prependDlList (st : State α) (node : ℕ) : Except Halt (State α) := do
  let heap ← setNext st.heap (some node) st.lst.first
  match st.lst.first with
  | some first => do
      let heap ← setPrev heap (some first) (some node)
      .ok ⟨heap, { st.lst with first := some node }⟩
  | none => .ok ⟨heap, { st.lst with crnt := some node, last := some node, first := some node }⟩

/-- A new node goes behind the current one, but in front of it at the head of the list. -/
def linkAtCrnt (st : State α) (crnt : ℕ) (cell : DlListNode α) (node : ℕ) :
    Except Halt (State α) :=
  match cell.prev, cell.next with
  | none, _ => prependDlList st node
  | some _, none => appendDlList st node
  | some _, some next => do
      let heap ← setPrev st.heap (some node) (some crnt)
      let heap ← setNext heap (some node) (some next)
      let heap ← setNext heap (some crnt) (some node)
      let heap ← setPrev heap (some next) (some node)
      .ok ⟨heap, st.lst⟩

def insertDlListNode (st : State α) (node : ℕ) : Except Halt (Option α × State α) :=
  match st.lst.crnt with
  | none => .ok (none, st)
  | some crnt => do
      let cell ← deref st.heap (some crnt)
      let st ← linkAtCrnt st crnt cell node
      let cell ← deref st.heap (some node)
      .ok (some cell.data, st)

/-- The current node is taken out, but its memory is still in use. -/
def unlinkCrnt (st : State α) (cell : DlListNode α) : Except Halt (State α) :=
  let lst := { st.lst with crnt := if cell.next ≠ none then cell.next else cell.prev }
  match cell.next, cell.prev with
  | none, prev => do
      let lst := { lst with last := prev }
      let heap ← setNext st.heap lst.last none
      .ok ⟨heap, lst⟩
  | some next, none => do
      let lst := { lst with first := some next }
      let heap ← setPrev st.heap lst.first none
      .ok ⟨heap, lst⟩
  | some next, some prev => do
      let heap ← setPrev st.heap (some next) (some prev)
      let heap ← setNext heap (some prev) (some next)
      .ok ⟨heap, lst⟩

def removeCrnt (st : State α) : Except Halt (State α) :=
  match st.lst.crnt with
  | none => .ok st
  | some crnt => do
      let cell ← deref st.heap (some crnt)
      let st ← unlinkCrnt st cell
      let heap ← destroyDlListNode st.heap crnt
      .ok ⟨heap, st.lst⟩

def crntData (st : State α) : Except Halt (Option α) :=
  match st.lst.crnt with
  | none => .ok none
  | some crnt => do
      let cell ← deref st.heap (some crnt)
      .ok (some cell.data)

def deleteCrntDlListNode (st : State α) : Except Halt (Option α × State α) :=
  match st.lst.first with
  | none => .ok (none, st)
  | some _ => do
      let st ← removeCrnt st
      let data ← crntData st
      .ok (data, st)

def resetDlList (st : State α) (flag : ℤ) : Except Halt (Option α × State α) := do
  let lst := { st.lst with crnt := if flag ≠ 0 then st.lst.last else st.lst.first }
  let cell ← deref st.heap lst.crnt
  .ok (some cell.data, ⟨st.heap, lst⟩)

/-- What `iterate_dl_list` keeps for its caller: `NULL`, a node, or `(void*)-1`. -/
inductive Mark where
  | null
  | node (a : ℕ)
  | done
  deriving DecidableEq

def iterateDlList (st : State α) : Mark → Except Halt (Option α × Mark)
  | .done => .ok (none, .done)
  | .null =>
      match st.lst.first with
      | none => .error .invalidAccess
      | some first => do
          let cell ← deref st.heap (some first)
          .ok (some cell.data, .node first)
  | .node a => do
      let node ← deref st.heap (some a)
      match node.next with
      | some next => do
          let cell ← deref st.heap (some next)
          .ok (some cell.data, .node next)
      | none => .ok (none, .done)

/-- The new cursor, and the data of its node. -/
def setCrnt (st : State α) (crnt : Option ℕ) : Except Halt (Option α × State α) := do
  let cell ← deref st.heap crnt
  .ok (some cell.data, ⟨st.heap, { st.lst with crnt := crnt }⟩)

/-- `prev_dl_list_node` and `next_dl_list_node` look at the node that `link` leads to,
whether there is one or not. -/
def moveCrnt (link : DlListNode α → Option ℕ) (st : State α) :
    Except Halt (Option α × State α) :=
  match st.lst.crnt with
  | none => setCrnt st none
  | some crnt => do
      let cell ← deref st.heap (some crnt)
      setCrnt st (link cell)

def prevDlListNode (st : State α) : Except Halt (Option α × State α) :=
  moveCrnt DlListNode.prev st

def nextDlListNode (st : State α) : Except Halt (Option α × State α) :=
  moveCrnt DlListNode.next st

inductive Call (α : Type u) where
  | append (data : α)
  | prepend (data : α)
  | insert (data : α)
  | delete
  | reset (flag : ℤ)

def perform (alloc : NodeAllocator α) (st : State α) : Call α → Except Halt (State α)
  | .append data =>
      let (node, heap) := createDlListNode alloc st.heap data
      appendDlList ⟨heap, st.lst⟩ node
  | .prepend data =>
      let (node, heap) := createDlListNode alloc st.heap data
      prependDlList ⟨heap, st.lst⟩ node
  | .insert data => do
      let (node, heap) := createDlListNode alloc st.heap data
      let (_, st) ← insertDlListNode ⟨heap, st.lst⟩ node
      .ok st
  | .delete => do
      let (_, st) ← deleteCrntDlListNode st
      .ok st
  | .reset flag => do
      let (_, st) ← resetDlList st flag
      .ok st

/-- The calls one after the other on a new list. -/
def after (alloc : NodeAllocator α) (heap : NodeHeap α) (calls : List (Call α)) :
    Except Halt (State α) :=
  calls.foldlM (perform alloc) ⟨heap, createDlList⟩

end DlList

end SimpleVm
