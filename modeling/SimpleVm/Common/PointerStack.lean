import SimpleVm.Common.PointerList

/-!
# Pointer lists as stacks

Several lists live in one memory: each has a header with the address of its
buffer, and the buffer may move when it grows. A list that is copied shares
no buffer with its copy, so each of them is a stack of its own.
-/

namespace SimpleVm

universe u

namespace PointerStack

variable {α : Type u}

abbrev BufferHeap (α : Type u) := Heap (List (Option α))

/-- `move` is where a reallocated block goes, which may be where it was. -/
structure Reallocator (α : Type u) extends Heap.Allocator (List (Option α)) where
  move : BufferHeap α → ℕ → ℕ
  move_unused : ∀ (heap : BufferHeap α) (a : ℕ), move heap a = a ∨ heap.cells (move heap a) = none
  fresh : BufferHeap α → ℕ → Option α

/-- Every block that is allocated or grows goes behind all others. -/
def Reallocator.moving (fresh : BufferHeap α → ℕ → Option α) : Reallocator α where
  toAllocator := Heap.Allocator.bump
  move heap _ := heap.bound
  move_unused heap _ := .inr (heap.unused heap.bound le_rfl)
  fresh := fresh

structure Header where
  buffer : ℕ
  len : ℕ
  cap : ℕ
  isSorted : Bool

/-- The lists are numbered in the order they were created. -/
structure State (α : Type u) where
  heap : BufferHeap α
  lists : List Header

def Header.list (hd : Header) (buffer : List (Option α)) : PointerList α :=
  ⟨buffer, hd.len, hd.cap, hd.isSorted⟩

def load (st : State α) (n : ℕ) : Except Halt (Header × PointerList α) :=
  match st.lists[n]? with
  | none => .error .invalidAccess
  | some hd => do
      let buffer ← deref st.heap (some hd.buffer)
      .ok (hd, hd.list buffer)

/-- The buffer moves only when its capacity has changed. -/
def store (alloc : Reallocator α) (st : State α) (n : ℕ) (hd : Header) (lst : PointerList α) :
    State α :=
  let a := if lst.cap = hd.cap then hd.buffer else alloc.move st.heap hd.buffer
  { heap := (st.heap.put hd.buffer none).put a (some lst.buffer)
    lists := st.lists.set n ⟨a, lst.len, lst.cap, lst.isSorted⟩ }

def create (alloc : Reallocator α) (st : State α) : State α :=
  let lst := (PointerList.createPtrList : PointerList α)
  let a := alloc.pick st.heap
  { heap := st.heap.put a (some lst.buffer)
    lists := st.lists ++ [⟨a, lst.len, lst.cap, lst.isSorted⟩] }

def append (alloc : Reallocator α) (st : State α) (n : ℕ) (ptr : Option α) :
    Except Halt (State α) := do
  let (hd, lst) ← load st n
  let lst ← lst.appendPtrList (alloc.fresh st.heap) ptr
  .ok (store alloc st n hd lst)

def push (alloc : Reallocator α) (st : State α) (n : ℕ) (ptr : Option α) :
    Except Halt (State α) := do
  let (hd, lst) ← load st n
  let lst ← lst.pushPtrList (alloc.fresh st.heap) ptr
  .ok (store alloc st n hd lst)

def pop (alloc : Reallocator α) (st : State α) (n : ℕ) : Except Halt (Option α × State α) := do
  let (hd, lst) ← load st n
  let (ptr, lst) ← lst.popPtrList
  .ok (ptr, store alloc st n hd lst)

def peek (st : State α) (n : ℕ) : Except Halt (Option α) := do
  let (_, lst) ← load st n
  lst.peekPtrList

def index (st : State α) (n : ℕ) (idx : ℤ) : Except Halt (Option α) := do
  let (_, lst) ← load st n
  lst.indexPtrList idx

def iterate (st : State α) (n : ℕ) (post : ℤ) : Except Halt (Option α × ℤ) := do
  let (_, lst) ← load st n
  PointerList.iteratePtrList (some lst) post

/-- One round of the loop of `copy_ptr_list`: the pointer at `i` goes from list `n` to list `m`. -/
def copyRound (alloc : Reallocator α) (n m : ℕ) (st : State α) (i : ℕ) :
    Except Halt (State α) := do
  let (_, lst) ← load st n
  match lst.buffer[i]? with
  | none => .error .invalidAccess
  | some ptr => append alloc st m ptr

def copyPtrList (alloc : Reallocator α) (st : State α) (n : ℕ) : Except Halt (State α) := do
  let (_, lst) ← load st n
  (List.range lst.len).foldlM (copyRound alloc n st.lists.length) (create alloc st)

/-! ## Runs -/

inductive Call (α : Type u) where
  | append (n : ℕ) (ptr : α)
  | push (n : ℕ) (ptr : α)
  | pop (n : ℕ)
  | copy (n : ℕ)

inductive Answer (α : Type u) where
  | done
  | pointer (ptr : Option α)
  | list (n : ℕ)

def perform (alloc : Reallocator α) (st : State α) : Call α → Except Halt (Answer α × State α)
  | .append n ptr => do
      let st ← append alloc st n (some ptr)
      .ok (.done, st)
  | .push n ptr => do
      let st ← push alloc st n (some ptr)
      .ok (.done, st)
  | .pop n => do
      let (ptr, st) ← pop alloc st n
      .ok (.pointer ptr, st)
  | .copy n => do
      let copied ← copyPtrList alloc st n
      .ok (.list st.lists.length, copied)

/-- The answers of the calls and the state after them. -/
def runCalls {σ : Type u} (step : σ → Call α → Except Halt (Answer α × σ)) :
    σ → List (Call α) → Except Halt (List (Answer α) × σ)
  | s, [] => .ok ([], s)
  | s, call :: calls => do
      let (answer, s) ← step s call
      let (answers, s) ← runCalls step s calls
      .ok (answer :: answers, s)

/-- The calls on one new list and on copies of lists. -/
def after (alloc : Reallocator α) (heap : BufferHeap α) (calls : List (Call α)) :
    Except Halt (List (Answer α) × State α) :=
  runCalls (perform alloc) (create alloc ⟨heap, []⟩) calls

/-- `k` calls of `iterate_ptr_list`, each with the mark that the one before it left. -/
def iterateTimes (st : State α) (n : ℕ) : ℕ → ℤ → Except Halt (List (Option α))
  | 0, _ => .ok []
  | k + 1, post => do
      let (ptr, post) ← iterate st n post
      let ptrs ← iterateTimes st n k post
      .ok (ptr :: ptrs)

/-! ## What the lists stand for -/

/-- Only the largest capacity of an `int` limits a stack. -/
def onStack (family : List (List α)) (n : ℕ) (ptr : α) : Except Halt (List (List α)) :=
  match family[n]? with
  | none => .error .invalidAccess
  | some l => if l.length < 2 ^ 30 then .ok (family.set n (l ++ [ptr])) else .error .fatal

/-- The same calls on a family of stacks. -/
def performOnStacks (family : List (List α)) : Call α → Except Halt (Answer α × List (List α))
  | .append n ptr | .push n ptr => do
      let family ← onStack family n ptr
      .ok (.done, family)
  | .pop n =>
      match family[n]? with
      | none => .error .invalidAccess
      | some l => .ok (.pointer l.getLast?, family.set n l.dropLast)
  | .copy n =>
      match family[n]? with
      | none => .error .invalidAccess
      | some l => .ok (.list family.length, family ++ [l])

def stacksAfter (calls : List (Call α)) : Except Halt (List (Answer α) × List (List α)) :=
  runCalls performOnStacks [[]] calls

/-- What is read of list `n` is read of the stack `l`. -/
structure ReadsAs (st : State α) (n : ℕ) (l : List α) : Prop where
  peek : peek st n = .ok l.getLast?
  index : ∀ (i : ℕ) (hi : i < l.length), index st n i = .ok (some l[i])
  index_outside : ∀ i : ℤ, l.length ≤ i → PointerStack.index st n i = .ok none
  iterate : ∀ k, iterateTimes st n k 0 =
    .ok ((l.take k).map some ++ List.replicate (k - l.length) none)

/-- The lists are those stacks. -/
structure Represents (family : List (List α)) (st : State α) : Prop where
  length_eq : st.lists.length = family.length
  held : ∀ (n : ℕ) (hd : Header) (l : List α), st.lists[n]? = some hd → family[n]? = some l →
    ∃ buffer, st.heap.cells hd.buffer = some buffer ∧
      PointerList.Holds (l.map some) (hd.list buffer)
  apart : ∀ (n m : ℕ) (hd hd' : Header), st.lists[n]? = some hd → st.lists[m]? = some hd' →
    hd.buffer = hd'.buffer → n = m

variable {family : List (List α)} {st : State α} {n : ℕ} {l l' : List α}

theorem Represents.load (h : Represents family st) (hl : family[n]? = some l) :
    ∃ hd lst, PointerStack.load st n = .ok (hd, lst) ∧ st.lists[n]? = some hd ∧
      PointerList.Holds (l.map some) lst := by
  have hlt : n < st.lists.length := by
    rw [h.length_eq]
    exact (List.getElem?_eq_some_iff.mp hl).1
  obtain ⟨hd, hhd⟩ : ∃ hd, st.lists[n]? = some hd := ⟨_, List.getElem?_eq_getElem hlt⟩
  obtain ⟨buffer, hcell, hheld⟩ := h.held n hd l hhd hl
  refine ⟨hd, hd.list buffer, ?_, hhd, hheld⟩
  simp only [PointerStack.load, hhd, deref_of_cell hcell, ok_bind]

theorem Represents.load_none (h : Represents family st) (hl : family[n]? = none) :
    PointerStack.load st n = .error .invalidAccess := by
  have hnone : st.lists[n]? = none := by
    rw [List.getElem?_eq_none_iff, h.length_eq]
    exact List.getElem?_eq_none_iff.mp hl
  simp only [PointerStack.load, hnone]

theorem Represents.allocated (h : Represents family st) {hd : Header}
    (hhd : st.lists[n]? = some hd) : st.heap.Allocated hd.buffer := by
  have hlt : n < family.length := by
    rw [← h.length_eq]
    exact (List.getElem?_eq_some_iff.mp hhd).1
  obtain ⟨buffer, hcell, -⟩ := h.held n hd _ hhd (List.getElem?_eq_getElem hlt)
  exact Heap.allocated_of_cell hcell

/-- Changing one list, whose buffer may move, leaves the others. -/
theorem Represents.store (h : Represents family st) (alloc : Reallocator α) {hd : Header}
    {lst : PointerList α} (hhd : st.lists[n]? = some hd)
    (hheld : PointerList.Holds (l'.map some) lst) :
    Represents (family.set n l') (PointerStack.store alloc st n hd lst) := by
  have hlt : n < st.lists.length := (List.getElem?_eq_some_iff.mp hhd).1
  have hn : n < family.length := h.length_eq ▸ hlt
  unfold PointerStack.store
  extract_lets a
  -- no other buffer is where the changed one goes
  have hother : ∀ m hd', m ≠ n → st.lists[m]? = some hd' →
      hd'.buffer ≠ hd.buffer ∧ hd'.buffer ≠ a := by
    intro m hd' hm hhd'
    have hne : hd'.buffer ≠ hd.buffer := fun he => hm (h.apart m n hd' hd hhd' hhd he)
    refine ⟨hne, ?_⟩
    by_cases hcap : lst.cap = hd.cap
    · simp only [a, if_pos hcap]
      exact hne
    · simp only [a, if_neg hcap]
      rcases alloc.move_unused st.heap hd.buffer with hsame | hfree
      · rw [hsame]
        exact hne
      · exact (h.allocated hhd').ne hfree
  -- a header of the new state is the changed one, or an old one at another place
  have hcases : ∀ m hd', (st.lists.set n ⟨a, lst.len, lst.cap, lst.isSorted⟩)[m]? = some hd' →
      m = n ∧ hd' = ⟨a, lst.len, lst.cap, lst.isSorted⟩ ∨ m ≠ n ∧ st.lists[m]? = some hd' := by
    intro m hd' hhd'
    by_cases hm : m = n
    · subst hm
      rw [List.getElem?_set_self hlt] at hhd'
      cases hhd'
      exact .inl ⟨rfl, rfl⟩
    · rw [List.getElem?_set_ne (Ne.symm hm)] at hhd'
      exact .inr ⟨hm, hhd'⟩
  constructor
  · simp only [List.length_set]
    exact h.length_eq
  · intro m hd' k hhd' hk
    rcases hcases m hd' hhd' with ⟨rfl, rfl⟩ | ⟨hm, hold⟩
    · rw [List.getElem?_set_self hn] at hk
      cases hk
      exact ⟨lst.buffer, Heap.cells_put_self _, hheld⟩
    · rw [List.getElem?_set_ne (Ne.symm hm)] at hk
      obtain ⟨buffer, hcell, hheld'⟩ := h.held m hd' k hold hk
      obtain ⟨hne, hne'⟩ := hother m hd' hm hold
      refine ⟨buffer, ?_, hheld'⟩
      rw [Heap.cells_put_of_ne hne', Heap.cells_put_of_ne hne, hcell]
  · intro m m' hd₁ hd₂ hm hm' heq
    rcases hcases m hd₁ hm with ⟨rfl, rfl⟩ | ⟨h₁, hold₁⟩
    · rcases hcases m' hd₂ hm' with ⟨rfl, -⟩ | ⟨h₂, hold₂⟩
      · rfl
      · exact ((hother m' hd₂ h₂ hold₂).2 heq.symm).elim
    · rcases hcases m' hd₂ hm' with ⟨rfl, rfl⟩ | ⟨h₂, hold₂⟩
      · exact ((hother m hd₁ h₁ hold₁).2 heq).elim
      · exact h.apart m m' hd₁ hd₂ hold₁ hold₂ heq

/-- A new list has a buffer that no list has. -/
theorem Represents.create (h : Represents family st) (alloc : Reallocator α) :
    Represents (family ++ [[]]) (PointerStack.create alloc st) := by
  have hlen := h.length_eq
  have hfree := alloc.unused st.heap
  unfold PointerStack.create
  extract_lets lst a
  -- a header of the new state is an old one, or the last
  have hcases : ∀ m hd, (st.lists ++ [⟨a, lst.len, lst.cap, lst.isSorted⟩])[m]? = some hd →
      st.lists[m]? = some hd ∧ hd.buffer ≠ a ∨
        m = st.lists.length ∧ hd = ⟨a, lst.len, lst.cap, lst.isSorted⟩ := by
    intro m hd hm
    rcases lt_or_ge m st.lists.length with hlt | hge
    · rw [List.getElem?_append_left hlt] at hm
      exact .inl ⟨hm, (h.allocated hm).ne hfree⟩
    · rw [List.getElem?_append_right hge] at hm
      rw [List.getElem?_singleton] at hm
      split at hm
      · cases hm
        exact .inr ⟨by omega, rfl⟩
      · cases hm
  constructor
  · simp only [List.length_append, List.length_singleton, hlen]
  · intro m hd k hm hk
    rcases hcases m hd hm with ⟨hold, hne⟩ | ⟨rfl, rfl⟩
    · have hlt : m < family.length := by
        rw [← hlen]
        exact (List.getElem?_eq_some_iff.mp hold).1
      rw [List.getElem?_append_left hlt] at hk
      obtain ⟨buffer, hcell, hheld⟩ := h.held m hd k hold hk
      exact ⟨buffer, (Heap.cells_put_of_ne hne _).trans hcell, hheld⟩
    · rw [hlen, List.getElem?_concat_length] at hk
      cases hk
      exact ⟨lst.buffer, Heap.cells_put_self _, PointerList.holds_create⟩
  · intro m m' hd hd' hm hm' heq
    rcases hcases m hd hm with ⟨hold, hne⟩ | ⟨rfl, rfl⟩
    · rcases hcases m' hd' hm' with ⟨hold', -⟩ | ⟨-, rfl⟩
      · exact h.apart m m' hd hd' hold hold' heq
      · exact (hne heq).elim
    · rcases hcases m' hd' hm' with ⟨-, hne'⟩ | ⟨rfl, -⟩
      · exact (hne' heq.symm).elim
      · rfl

theorem Represents.append (h : Represents family st) (alloc : Reallocator α)
    (hl : family[n]? = some l) (hroom : l.length < 2 ^ 30) (ptr : α) :
    ∃ st', PointerStack.append alloc st n (some ptr) = .ok st' ∧
      Represents (family.set n (l ++ [ptr])) st' := by
  obtain ⟨hd, lst, hload, hhd, hheld⟩ := h.load hl
  obtain ⟨lst', hrun, hheld'⟩ :=
    hheld.appendPtrList (by rwa [List.length_map]) (alloc.fresh st.heap) (some ptr)
  have hmap : l.map some ++ [some ptr] = (l ++ [ptr]).map some := by
    rw [List.map_append, List.map_singleton]
  rw [hmap] at hheld'
  refine ⟨_, ?_, h.store alloc hhd hheld'⟩
  simp only [PointerStack.append, hload, hrun, ok_bind]

theorem Represents.append_full (h : Represents family st) (alloc : Reallocator α)
    (hl : family[n]? = some l) (hfull : ¬ l.length < 2 ^ 30) (ptr : α) :
    PointerStack.append alloc st n (some ptr) = .error .fatal := by
  obtain ⟨hd, lst, hload, -, hheld⟩ := h.load hl
  have hlen : 2 ^ 30 ≤ (l.map some).length := by
    rw [List.length_map]
    exact not_lt.mp hfull
  simp only [PointerStack.append, hload, hheld.appendPtrList_full hlen, ok_bind, error_bind]

theorem push_eq_append (alloc : Reallocator α) (st : State α) (n : ℕ) (ptr : Option α) :
    push alloc st n ptr = append alloc st n ptr := by
  simp only [push, append, PointerList.pushPtrList_eq]

theorem getLast?_map_some (l : List α) : (l.map some).getLast?.join = l.getLast? := by
  rw [List.getLast?_map]
  cases l.getLast? <;> rfl

theorem Represents.pop (h : Represents family st) (alloc : Reallocator α)
    (hl : family[n]? = some l) :
    ∃ st', PointerStack.pop alloc st n = .ok (l.getLast?, st') ∧
      Represents (family.set n l.dropLast) st' := by
  obtain ⟨hd, lst, hload, hhd, hheld⟩ := h.load hl
  obtain ⟨lst', hrun, hheld'⟩ := hheld.popPtrList
  rw [← List.map_dropLast] at hheld'
  refine ⟨_, ?_, h.store alloc hhd hheld'⟩
  simp only [PointerStack.pop, hload, hrun, getLast?_map_some, ok_bind]

/-- After `k` rounds the new list has the first `k` pointers of the copied one. -/
theorem Represents.copyRounds (h : Represents family st) (alloc : Reallocator α)
    (hl : family[n]? = some l) {k : ℕ} (hk : k ≤ l.length) :
    ∃ st', (List.range k).foldlM (copyRound alloc n family.length) (PointerStack.create alloc st) =
      .ok st' ∧ Represents (family ++ [l.take k]) st' := by
  induction k with
  | zero => exact ⟨_, rfl, h.create alloc⟩
  | succ k ih =>
      obtain ⟨st₁, hrun₁, h₁⟩ := ih (Nat.le_of_succ_le hk)
      have hn : n < family.length := (List.getElem?_eq_some_iff.mp hl).1
      have hl₁ : (family ++ [l.take k])[n]? = some l := by
        rw [List.getElem?_append_left hn, hl]
      have hnew : (family ++ [l.take k])[family.length]? = some (l.take k) :=
        List.getElem?_concat_length
      obtain ⟨hd, lst, hload, -, hheld⟩ := h₁.load hl₁
      have hget : lst.buffer[k]? = some (some l[k]) := by
        rw [hheld.getElem?_buffer (by rwa [List.length_map]), List.getElem_map]
      have hroom : (l.take k).length < 2 ^ 30 := by
        have hle := hheld.len_le
        have hlen := hheld.len_eq
        have hcap := hheld.cap_le
        rw [List.length_map] at hlen
        rw [List.length_take]
        omega
      obtain ⟨st₂, hrun₂, h₂⟩ := h₁.append alloc hnew hroom l[k]
      have hfamily : (family ++ [l.take k]).set family.length (l.take k ++ [l[k]]) =
          family ++ [l.take (k + 1)] := by
        rw [List.set_append_right _ _ le_rfl, Nat.sub_self, List.set_cons_zero,
          List.take_append_getElem]
      rw [hfamily] at h₂
      refine ⟨st₂, ?_, h₂⟩
      simp only [List.range_succ, List.foldlM_append, hrun₁, List.foldlM_cons, copyRound, hload,
        ok_bind]
      simp only [hget, hrun₂, ok_bind, List.foldlM_nil]
      rfl

theorem Represents.copyPtrList (h : Represents family st) (alloc : Reallocator α)
    (hl : family[n]? = some l) :
    ∃ st', PointerStack.copyPtrList alloc st n = .ok st' ∧ Represents (family ++ [l]) st' := by
  obtain ⟨hd, lst, hload, -, hheld⟩ := h.load hl
  obtain ⟨st', hrun, h'⟩ := h.copyRounds alloc hl le_rfl
  rw [List.take_length] at h'
  have hlen : lst.len = l.length := by
    rw [hheld.len_eq, List.length_map]
  refine ⟨st', ?_, h'⟩
  simp only [PointerStack.copyPtrList, hload, hlen, h.length_eq, hrun, ok_bind]

/-! ## Every run is a run on stacks -/

/-- The run ends as the one on stacks does, and its lists are those stacks. -/
def Simulates {β : Type u} (onStacks : Except Halt (β × List (List α)))
    (onLists : Except Halt (β × State α)) : Prop :=
  match onStacks with
  | .error e => onLists = .error e
  | .ok (b, family) => ∃ st, onLists = .ok (b, st) ∧ Represents family st

theorem Represents.perform_append (h : Represents family st) (alloc : Reallocator α) (n : ℕ)
    (ptr : α) :
    Simulates (performOnStacks family (.append n ptr))
      (PointerStack.perform alloc st (.append n ptr)) := by
  cases hl : family[n]? with
  | none =>
      simp only [performOnStacks, onStack, hl, PointerStack.perform, PointerStack.append,
        h.load_none hl]
      rfl
  | some l =>
      by_cases hroom : l.length < 2 ^ 30
      · obtain ⟨st', hrun, h'⟩ := h.append alloc hl hroom ptr
        simp only [performOnStacks, onStack, hl, if_pos hroom, PointerStack.perform, hrun, ok_bind]
        exact ⟨st', rfl, h'⟩
      · simp only [performOnStacks, onStack, hl, if_neg hroom, PointerStack.perform,
          h.append_full alloc hl hroom]
        rfl

theorem Represents.perform (h : Represents family st) (alloc : Reallocator α) (call : Call α) :
    Simulates (performOnStacks family call) (PointerStack.perform alloc st call) := by
  cases call with
  | append n ptr => exact h.perform_append alloc n ptr
  | push n ptr =>
      simp only [PointerStack.perform, push_eq_append]
      exact h.perform_append alloc n ptr
  | pop n =>
      cases hl : family[n]? with
      | none =>
          simp only [performOnStacks, hl, PointerStack.perform, PointerStack.pop, h.load_none hl]
          rfl
      | some l =>
          obtain ⟨st', hrun, h'⟩ := h.pop alloc hl
          simp only [performOnStacks, hl, PointerStack.perform, hrun, ok_bind]
          exact ⟨st', rfl, h'⟩
  | copy n =>
      cases hl : family[n]? with
      | none =>
          simp only [performOnStacks, hl, PointerStack.perform, PointerStack.copyPtrList,
            h.load_none hl]
          rfl
      | some l =>
          obtain ⟨st', hrun, h'⟩ := h.copyPtrList alloc hl
          simp only [performOnStacks, hl, PointerStack.perform, hrun, ok_bind, h.length_eq]
          exact ⟨st', rfl, h'⟩

theorem Represents.runCalls (h : Represents family st) (alloc : Reallocator α)
    (calls : List (Call α)) :
    Simulates (PointerStack.runCalls performOnStacks family calls)
      (PointerStack.runCalls (PointerStack.perform alloc) st calls) := by
  induction calls generalizing family st with
  | nil => exact ⟨st, rfl, h⟩
  | cons call calls ih =>
      have hstep := h.perform alloc call
      simp only [PointerStack.runCalls]
      cases hspec : performOnStacks family call with
      | error e =>
          rw [hspec] at hstep
          rw [hstep]
          rfl
      | ok result =>
          obtain ⟨answer, family'⟩ := result
          rw [hspec] at hstep
          obtain ⟨st', hrun, h'⟩ := hstep
          have hrest := ih h'
          simp only [hrun, ok_bind]
          cases hspecs : PointerStack.runCalls performOnStacks family' calls with
          | error e =>
              rw [hspecs] at hrest
              rw [hrest]
              rfl
          | ok results =>
              obtain ⟨answers, family''⟩ := results
              rw [hspecs] at hrest
              obtain ⟨st'', hruns, h''⟩ := hrest
              simp only [hruns, ok_bind]
              exact ⟨st'', rfl, h''⟩

/-! ## Reading -/

theorem Represents.iterateTimes (h : Represents family st) (hl : family[n]? = some l) (k : ℕ)
    {i : ℕ} (hi : i ≤ l.length) :
    PointerStack.iterateTimes st n k i =
      .ok (((l.drop i).take k).map some ++ List.replicate (k - (l.length - i)) none) := by
  obtain ⟨hd, lst, hload, -, hheld⟩ := h.load hl
  induction k generalizing i with
  | zero => simp [PointerStack.iterateTimes]
  | succ k ih =>
      rcases Nat.lt_or_eq_of_le hi with hlt | rfl
      · have hlt' : i < (l.map some).length := by rwa [List.length_map]
        have hstep : iterate st n i = .ok (some l[i], (i + 1 : ℕ)) := by
          simp only [iterate, hload, ok_bind, hheld.iteratePtrList hlt', List.getElem_map]
        have hcount : k + 1 - (l.length - i) = k - (l.length - (i + 1)) := by omega
        simp only [PointerStack.iterateTimes, hstep, ok_bind, ih hlt]
        rw [hcount, List.drop_eq_getElem_cons hlt, List.take_succ_cons, List.map_cons,
          List.cons_append]
      · have hstep : iterate st n l.length = .ok (none, l.length) := by
          have hend := hheld.iteratePtrList_end
          rw [List.length_map] at hend
          simp only [iterate, hload, ok_bind, hend]
        simp only [PointerStack.iterateTimes, hstep, ok_bind, ih le_rfl, List.drop_length,
          List.take_nil, List.map_nil, List.nil_append, Nat.sub_self, Nat.sub_zero]
        rfl

theorem Represents.readsAs (h : Represents family st) (hl : family[n]? = some l) :
    ReadsAs st n l := by
  obtain ⟨hd, lst, hload, -, hheld⟩ := h.load hl
  constructor
  · simp only [peek, hload, ok_bind, hheld.peekPtrList, getLast?_map_some]
  · intro i hi
    have hget := hheld.indexPtrList (i := i) (by rwa [List.length_map])
    rw [List.getElem_map] at hget
    simp only [index, hload, ok_bind, hget]
  · intro i hi
    have hget := hheld.indexPtrList_outside (i := i) (by rwa [List.length_map])
    simp only [index, hload, ok_bind, hget]
  · intro k
    have htimes := h.iterateTimes hl k (Nat.zero_le l.length)
    rw [List.drop_zero, Nat.sub_zero] at htimes
    exact htimes

theorem represents_create (alloc : Reallocator α) (heap : BufferHeap α) :
    Represents [[]] (PointerStack.create alloc ⟨heap, []⟩) := by
  have hnone : Represents ([] : List (List α)) ⟨heap, []⟩ := by
    constructor
    · rfl
    · intro n hd l hhd
      cases hhd
    · intro n m hd hd' hhd
      cases hhd
  exact hnone.create alloc

/-- Pointer lists and their copies are stacks, each of them its own. -/
theorem lists_are_stacks (alloc : Reallocator α) (heap : BufferHeap α) (calls : List (Call α)) :
    match stacksAfter calls with
    | .error e => after alloc heap calls = .error e
    | .ok (answers, family) => ∃ st, after alloc heap calls = .ok (answers, st) ∧
        st.lists.length = family.length ∧ ∀ n l, family[n]? = some l → ReadsAs st n l := by
  have hsim := (represents_create alloc heap).runCalls alloc calls
  change Simulates (stacksAfter calls) (after alloc heap calls) at hsim
  cases hspec : stacksAfter calls with
  | error e =>
      rw [hspec] at hsim
      exact hsim
  | ok result =>
      obtain ⟨answers, family⟩ := result
      rw [hspec] at hsim
      obtain ⟨st, hrun, h⟩ := hsim
      exact ⟨st, hrun, h.length_eq, fun n l hl => h.readsAs hl⟩

/-- Nine pointers, for which the block grows, a copy, and then another call on each list. -/
def copiedWhenGrown : List (Call ℕ) :=
  [1, 2, 3, 4, 5, 6, 7, 8, 9].map (.push 0) ++ [.copy 0, .pop 0, .pop 0, .push 1 10, .append 0 11]

theorem lists_are_stacks_copied :
    ∃ st, after (.moving fun _ _ => some 0) Heap.empty copiedWhenGrown =
        .ok (List.replicate 9 .done ++ [.list 1, .pointer (some 9), .pointer (some 8), .done, .done],
          st) ∧
      st.lists.map Header.buffer = [17, 36] ∧
      ReadsAs st 0 [1, 2, 3, 4, 5, 6, 7, 11] ∧
      ReadsAs st 1 [1, 2, 3, 4, 5, 6, 7, 8, 9, 10] := by
  have hspec : stacksAfter copiedWhenGrown =
      .ok (List.replicate 9 .done ++ [.list 1, .pointer (some 9), .pointer (some 8), .done, .done],
        [[1, 2, 3, 4, 5, 6, 7, 11], [1, 2, 3, 4, 5, 6, 7, 8, 9, 10]]) := rfl
  have hmoved : (after (.moving fun _ _ => some 0) Heap.empty copiedWhenGrown).map
      (fun result => result.2.lists.map Header.buffer) = .ok [17, 36] := by
    decide +kernel
  generalize copiedWhenGrown = calls at hspec hmoved ⊢
  have hrun := lists_are_stacks (.moving fun _ _ => some 0) Heap.empty calls
  rw [hspec] at hrun
  obtain ⟨st, hst, -, hreads⟩ := hrun
  rw [hst] at hmoved
  exact ⟨st, hst, Except.ok.inj hmoved, hreads 0 _ rfl, hreads 1 _ rfl⟩

end PointerStack

end SimpleVm
