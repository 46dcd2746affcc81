import SimpleVm.Common.DlList
import SimpleVm.Lib.LinkedList
import SimpleVm.Lib.Runs

/-!
# The invariant of the doubly linked list

Every call leaves a list that reads the same from both ends, with the cursor
on one of its nodes, unless it goes through `NULL`. It does so when it
deletes the only node, whose neighbours are both `NULL`, and when it resets
the cursor of an empty list.
-/

namespace SimpleVm

open LinkedList

universe u

variable {α : Type u}

namespace DlList

/-! ## Links on the heap -/

def links (heap : NodeHeap α) : Links ℕ where
  next a := (heap.cells a).bind DlListNode.next
  prev a := (heap.cells a).bind DlListNode.prev

section Heap

variable {heap : NodeHeap α} {a : ℕ}

theorem links_put (node : DlListNode α) :
    links (heap.put a (some node)) = ((links heap).setNext a node.next).setPrev a node.prev := by
  unfold links Links.setPrev Links.setNext
  congr 1
  · funext b
    by_cases hb : b = a
    · subst hb
      simp
    · simp [Heap.cells_put_of_ne hb, hb]
  · funext b
    by_cases hb : b = a
    · subst hb
      simp
    · simp [Heap.cells_put_of_ne hb, hb]

theorem setNext_allocated (h : heap.Allocated a) (p : Option ℕ) :
    ∃ heap', setNext heap (some a) p = .ok heap' ∧ links heap' = (links heap).setNext a p ∧
      ∀ b, heap'.Allocated b ↔ heap.Allocated b := by
  obtain ⟨node, hnode⟩ := h.exists_cell
  refine ⟨heap.put a (some { node with next := p }), ?_, ?_, Heap.allocated_put_iff h _⟩
  · simp only [setNext, deref_of_cell hnode, ok_bind]
  · have hprev : ((links heap).setNext a p).prev a = node.prev := by
      simp [links, Links.setNext, hnode]
    rw [links_put, Links.setPrev_eq_self hprev]

theorem setPrev_allocated (h : heap.Allocated a) (p : Option ℕ) :
    ∃ heap', setPrev heap (some a) p = .ok heap' ∧ links heap' = (links heap).setPrev a p ∧
      ∀ b, heap'.Allocated b ↔ heap.Allocated b := by
  obtain ⟨node, hnode⟩ := h.exists_cell
  refine ⟨heap.put a (some { node with prev := p }), ?_, ?_, Heap.allocated_put_iff h _⟩
  · simp only [setPrev, deref_of_cell hnode, ok_bind]
  · have hnext : (links heap).next a = node.next := by
      simp [links, hnode]
    rw [links_put, Links.setNext_eq_self hnext]

end Heap

/-! ## What every call keeps -/

/-- The cursor is on one of the nodes `l`, or `NULL` when there are none. -/
def OnNode (l : List ℕ) (crnt : Option ℕ) : Prop :=
  (crnt = none ↔ l = []) ∧ ∀ a, crnt = some a → a ∈ l

theorem onNode_some {l : List ℕ} {a : ℕ} (h : a ∈ l) : OnNode l (some a) := by
  have hne : l ≠ [] := List.ne_nil_of_mem h
  refine ⟨by simp [hne], ?_⟩
  rintro b ⟨⟩
  exact h

theorem OnNode.mono {l l' : List ℕ} {crnt : Option ℕ} (h : OnNode l crnt) (hl : l ≠ [])
    (hsub : l ⊆ l') : OnNode l' crnt := by
  cases crnt with
  | none => exact (hl (h.1.mp rfl)).elim
  | some a => exact onNode_some (hsub (h.2 a rfl))

/-- The nodes of the list are `l`. -/
structure Linked (l : List ℕ) (st : State α) : Prop where
  isList : IsList (links st.heap) st.lst.first st.lst.last l
  allocated : ∀ a ∈ l, st.heap.Allocated a
  crnt : OnNode l st.lst.crnt

/-- A node that nothing is linked to and that is linked to nothing. -/
structure Fresh (l : List ℕ) (st : State α) (node : ℕ) : Prop where
  notMem : node ∉ l
  allocated : st.heap.Allocated node
  next_eq : (links st.heap).next node = none
  prev_eq : (links st.heap).prev node = none

variable {l : List ℕ} {st : State α} {node : ℕ}

theorem linked_create (heap : NodeHeap α) : Linked [] ⟨heap, createDlList⟩ where
  isList := isList_nil (links heap)
  allocated := by simp
  crnt := ⟨by simp [createDlList], by simp [createDlList]⟩

theorem Linked.createDlListNode (h : Linked l st) (alloc : NodeAllocator α) (data : α) :
    ∃ node heap, DlList.createDlListNode alloc st.heap data = (node, heap) ∧
      Linked l ⟨heap, st.lst⟩ ∧ Fresh l ⟨heap, st.lst⟩ node := by
  have hunused := alloc.unused st.heap
  refine ⟨alloc.pick st.heap, _, rfl, ?_, ?_⟩
  · have hnext : (links st.heap).next (alloc.pick st.heap) = none := by
      simp [links, hunused]
    have hprev : (links st.heap).prev (alloc.pick st.heap) = none := by
      simp [links, hunused]
    have hlinks : links (st.heap.put (alloc.pick st.heap) (some ⟨data, none, none⟩)) =
        links st.heap := by
      rw [links_put, Links.setNext_eq_self hnext, Links.setPrev_eq_self hprev]
    refine ⟨?_, ?_, h.crnt⟩
    · rw [hlinks]
      exact h.isList
    · intro a ha
      have hne := (h.allocated a ha).ne hunused
      rw [Heap.Allocated, Heap.cells_put_of_ne hne]
      exact h.allocated a ha
  · constructor
    · intro hmem
      exact (h.allocated _ hmem).ne hunused rfl
    · simp [Heap.Allocated]
    · simp [links]
    · simp [links]

theorem Linked.appendDlList (h : Linked l st) (hfresh : Fresh l st node) :
    ∃ st', DlList.appendDlList st node = .ok st' ∧ Linked (l ++ [node]) st' ∧
      (l ≠ [] → st'.lst.crnt = st.lst.crnt) := by
  obtain ⟨heap₁, hrun₁, hlinks₁, halloc₁⟩ := setPrev_allocated hfresh.allocated st.lst.last
  have happend := h.isList.append hfresh.notMem hfresh.next_eq
  have hold : ∀ a ∈ l ++ [node], heap₁.Allocated a := by
    intro a ha
    rw [halloc₁]
    rcases List.mem_append.mp ha with ha | ha
    · exact h.allocated a ha
    · rw [List.mem_singleton.mp ha]
      exact hfresh.allocated
  rw [← hlinks₁] at happend
  rw [DlList.appendDlList, hrun₁, ok_bind]
  cases hlast : st.lst.last with
  | none =>
      obtain rfl : l = [] := h.isList.last_eq_none_iff.mp hlast
      have hfirst : st.lst.first = none := h.isList.first_eq_none_iff.mpr rfl
      rw [hfirst] at happend
      refine ⟨_, rfl, ⟨happend, hold, onNode_some (List.mem_singleton_self node)⟩, ?_⟩
      exact fun hne => absurd rfl hne
  | some c =>
      have hc : l.getLast? = some c := by
        rw [← h.isList.last_eq, hlast]
      have hmem : c ∈ l := List.mem_of_getLast? hc
      have hne : l ≠ [] := List.ne_nil_of_mem hmem
      have halloc : heap₁.Allocated c := hold c (List.mem_append_left [node] hmem)
      obtain ⟨heap₂, hrun₂, hlinks₂, halloc₂⟩ := setNext_allocated halloc (some node)
      refine ⟨⟨heap₂, { st.lst with last := some node }⟩, ?_, ⟨?_, ?_, ?_⟩, fun _ => rfl⟩
      · simp only [hrun₂, ok_bind]
      · rw [Links.setBehind_eq hc, ← hlinks₂, h.isList.first_or hne] at happend
        exact happend
      · intro a ha
        exact (halloc₂ a).mpr (hold a ha)
      · exact h.crnt.mono hne (List.subset_append_left l [node])

theorem Linked.prependDlList (h : Linked l st) (hfresh : Fresh l st node) :
    ∃ st', DlList.prependDlList st node = .ok st' ∧ Linked (node :: l) st' ∧
      (l ≠ [] → st'.lst.crnt = st.lst.crnt) := by
  obtain ⟨heap₁, hrun₁, hlinks₁, halloc₁⟩ := setNext_allocated hfresh.allocated st.lst.first
  have hprepend := h.isList.prepend hfresh.notMem hfresh.prev_eq
  have hold : ∀ a ∈ node :: l, heap₁.Allocated a := by
    intro a ha
    rw [halloc₁]
    rcases List.mem_cons.mp ha with rfl | ha
    · exact hfresh.allocated
    · exact h.allocated a ha
  rw [← hlinks₁] at hprepend
  rw [DlList.prependDlList, hrun₁, ok_bind]
  cases hfirst : st.lst.first with
  | none =>
      obtain rfl : l = [] := h.isList.first_eq_none_iff.mp hfirst
      have hlast : st.lst.last = none := h.isList.last_eq_none_iff.mpr rfl
      rw [hlast] at hprepend
      refine ⟨_, rfl, ⟨hprepend, hold, onNode_some (List.mem_singleton_self node)⟩, ?_⟩
      exact fun hne => absurd rfl hne
  | some c =>
      have hc : l.head? = some c := by
        rw [← h.isList.first_eq, hfirst]
      have hmem : c ∈ l := List.mem_of_mem_head? hc
      have hne : l ≠ [] := List.ne_nil_of_mem hmem
      have halloc : heap₁.Allocated c := hold c (List.mem_cons_of_mem node hmem)
      obtain ⟨heap₂, hrun₂, hlinks₂, halloc₂⟩ := setPrev_allocated halloc (some node)
      refine ⟨⟨heap₂, { st.lst with first := some node }⟩, ?_, ⟨?_, ?_, ?_⟩, fun _ => rfl⟩
      · simp only [hrun₂, ok_bind]
      · rw [Links.setBefore_eq hc, ← hlinks₂, h.isList.last_or hne] at hprepend
        exact hprepend
      · intro a ha
        exact (halloc₂ a).mpr (hold a ha)
      · exact h.crnt.mono hne (List.subset_cons_self node l)

/-! ## Around the cursor -/

theorem Linked.exists_crnt (h : Linked l st) {c : ℕ} (hc : st.lst.crnt = some c) :
    ∃ cell, st.heap.cells c = some cell :=
  Option.isSome_iff_exists.mp (h.allocated c (h.crnt.2 c hc))

/-- The node under the cursor is linked to its neighbours. -/
theorem Linked.neighbours {xs ys : List ℕ} {c : ℕ} {cell : DlListNode α}
    (h : Linked (xs ++ c :: ys) st) (hcell : st.heap.cells c = some cell) :
    cell.prev = xs.getLast? ∧ cell.next = ys.head? := by
  have hlinks := h.isList.links
  simp only [links, hcell, Option.bind_some] at hlinks
  exact hlinks

theorem Linked.at_crnt (h : Linked l st) {c : ℕ} {cell : DlListNode α}
    (hc : st.lst.crnt = some c) (hcell : st.heap.cells c = some cell) :
    ∃ xs ys, l = xs ++ c :: ys ∧ cell.prev = xs.getLast? ∧ cell.next = ys.head? := by
  obtain ⟨xs, ys, rfl⟩ := List.append_of_mem (h.crnt.2 c hc)
  exact ⟨xs, ys, rfl, h.neighbours hcell⟩

/-- The nodes after an insertion with `c` under the cursor. -/
def insertedAt (xs : List ℕ) (c node : ℕ) (ys : List ℕ) : List ℕ :=
  if xs = [] then node :: c :: ys else xs ++ c :: node :: ys

theorem mem_insertedAt (xs : List ℕ) (c node : ℕ) (ys : List ℕ) :
    node ∈ insertedAt xs c node ys := by
  rw [insertedAt]
  split <;> simp

theorem Linked.linkAtCrnt {xs ys : List ℕ} {c : ℕ} {cell : DlListNode α}
    (h : Linked (xs ++ c :: ys) st) (hfresh : Fresh (xs ++ c :: ys) st node)
    (hc : st.lst.crnt = some c) (hcell : st.heap.cells c = some cell) :
    ∃ st', DlList.linkAtCrnt st c cell node = .ok st' ∧ Linked (insertedAt xs c node ys) st' ∧
      st'.lst.crnt = some c := by
  obtain ⟨hprev, hnext⟩ := h.neighbours hcell
  have hne : xs ++ c :: ys ≠ [] := List.append_ne_nil_of_right_ne_nil _ (List.cons_ne_nil c ys)
  unfold DlList.linkAtCrnt
  rw [hprev, hnext]
  cases hxs : xs.getLast? with
  | none =>
      obtain rfl : xs = [] := List.getLast?_eq_none_iff.mp hxs
      obtain ⟨st', hrun, hlinked, hcrnt⟩ := h.prependDlList hfresh
      exact ⟨st', hrun, hlinked, (hcrnt hne).trans hc⟩
  | some x =>
      have hfront : xs ≠ [] := List.ne_nil_of_mem (List.mem_of_getLast? hxs)
      rw [insertedAt, if_neg hfront]
      cases ys with
      | nil =>
          obtain ⟨st', hrun, hlinked, hcrnt⟩ := h.appendDlList hfresh
          rw [List.append_assoc] at hlinked
          exact ⟨st', hrun, hlinked, (hcrnt hne).trans hc⟩
      | cons y ys =>
          have hsplit : xs ++ c :: y :: ys = (xs ++ [c]) ++ y :: ys := by simp
          rw [hsplit] at h hfresh
          have hinsert :=
            h.isList.insert_between hfresh.notMem List.getLast?_concat List.head?_cons
          obtain ⟨heap₁, hrun₁, hlinks₁, halloc₁⟩ :=
            setPrev_allocated hfresh.allocated (some c)
          rw [← hlinks₁] at hinsert
          obtain ⟨heap₂, hrun₂, hlinks₂, halloc₂⟩ :=
            setNext_allocated ((halloc₁ node).mpr hfresh.allocated) (some y)
          rw [← hlinks₂] at hinsert
          have hold : ∀ a, st.heap.Allocated a → heap₂.Allocated a := by
            intro a ha
            rwa [halloc₂, halloc₁]
          obtain ⟨heap₃, hrun₃, hlinks₃, halloc₃⟩ :=
            setNext_allocated (hold c (h.allocated c (by simp))) (some node)
          rw [← hlinks₃] at hinsert
          obtain ⟨heap₄, hrun₄, hlinks₄, halloc₄⟩ :=
            setPrev_allocated ((halloc₃ y).mpr (hold y (h.allocated y (by simp)))) (some node)
          rw [← hlinks₄] at hinsert
          have hnodes : xs ++ [c] ++ node :: y :: ys = xs ++ c :: node :: y :: ys := by simp
          rw [← hnodes]
          refine ⟨⟨heap₄, st.lst⟩, ?_, ⟨hinsert, ?_, ?_⟩, hc⟩
          · simp only [hrun₁, hrun₂, hrun₃, hrun₄, ok_bind, List.head?_cons]
          · intro a ha
            rw [halloc₄, halloc₃]
            rcases List.mem_append.mp ha with ha | ha
            · exact hold a (h.allocated a (List.mem_append_left _ ha))
            rcases List.mem_cons.mp ha with rfl | ha
            · exact hold a hfresh.allocated
            · exact hold a (h.allocated a (List.mem_append_right _ ha))
          · rw [hc]
            exact onNode_some (by simp)

theorem Linked.insertAtCrnt {xs ys : List ℕ} {c : ℕ} (h : Linked (xs ++ c :: ys) st)
    (hfresh : Fresh (xs ++ c :: ys) st node) (hc : st.lst.crnt = some c) :
    ∃ data st', DlList.insertDlListNode st node = .ok (data, st') ∧
      Linked (insertedAt xs c node ys) st' ∧ st'.lst.crnt = some c := by
  obtain ⟨cell, hcell⟩ := h.exists_crnt hc
  obtain ⟨st', hrun, hlinked, hcrnt⟩ := h.linkAtCrnt hfresh hc hcell
  obtain ⟨new, hnew⟩ :=
    Option.isSome_iff_exists.mp (hlinked.allocated node (mem_insertedAt xs c node ys))
  refine ⟨some new.data, st', ?_, hlinked, hcrnt⟩
  simp only [DlList.insertDlListNode, hc, deref_of_cell hcell, hrun, deref_of_cell hnew, ok_bind]

theorem Linked.insertDlListNode (h : Linked l st) (hfresh : Fresh l st node) :
    ∃ data st' l', DlList.insertDlListNode st node = .ok (data, st') ∧ Linked l' st' := by
  cases hc : st.lst.crnt with
  | none => exact ⟨none, st, l, by simp only [DlList.insertDlListNode, hc], h⟩
  | some c =>
      obtain ⟨xs, ys, rfl⟩ := List.append_of_mem (h.crnt.2 c hc)
      obtain ⟨data, st', hrun, hlinked, -⟩ := h.insertAtCrnt hfresh hc
      exact ⟨data, st', _, hrun, hlinked⟩

/-- What a removed node leaves: its neighbours are linked and one of them is current. -/
structure Unlinked (l : List ℕ) (st st' : State α) : Prop where
  isList : IsList (links st'.heap) st'.lst.first st'.lst.last l
  allocated : ∀ a, st'.heap.Allocated a ↔ st.heap.Allocated a
  crnt : OnNode l st'.lst.crnt

theorem Linked.unlinkCrnt {xs ys : List ℕ} {c : ℕ} {cell : DlListNode α}
    (h : Linked (xs ++ c :: ys) st) (hprev : cell.prev = xs.getLast?) (hnext : cell.next = ys.head?)
    (hmany : xs ++ ys ≠ []) :
    ∃ st', DlList.unlinkCrnt st cell = .ok st' ∧ Unlinked (xs ++ ys) st st' := by
  unfold DlList.unlinkCrnt
  rw [hprev, hnext]
  cases hy : ys.head? with
  | none =>
      obtain rfl : ys = [] := List.head?_eq_none_iff.mp hy
      rw [List.append_nil] at hmany ⊢
      obtain ⟨b, hb⟩ := Option.isSome_iff_exists.mp (List.getLast?_isSome.mpr hmany)
      have hmem : b ∈ xs := List.mem_of_getLast? hb
      obtain ⟨heap₁, hrun₁, hlinks₁, halloc₁⟩ :=
        setNext_allocated (h.allocated b (List.mem_append_left _ hmem)) none
      refine ⟨⟨heap₁, ⟨st.lst.first, some b, some b⟩⟩, ?_, ?_, halloc₁, ?_⟩
      · simp only [hb, hrun₁, ok_bind]
        rfl
      · rw [hlinks₁]
        exact h.isList.remove_last hb
      · exact onNode_some hmem
  | some y =>
      have hymem : y ∈ ys := List.mem_of_mem_head? hy
      have hyalloc : st.heap.Allocated y := h.allocated y (by simp [hymem])
      cases hx : xs.getLast? with
      | none =>
          obtain rfl : xs = [] := List.getLast?_eq_none_iff.mp hx
          obtain ⟨heap₁, hrun₁, hlinks₁, halloc₁⟩ := setPrev_allocated hyalloc none
          refine ⟨⟨heap₁, ⟨some y, st.lst.last, some y⟩⟩, ?_, ?_, halloc₁, ?_⟩
          · simp only [hrun₁, ok_bind]
            rfl
          · rw [hlinks₁]
            exact h.isList.remove_first hy
          · exact onNode_some hymem
      | some x =>
          have hxmem : x ∈ xs := List.mem_of_getLast? hx
          obtain ⟨heap₁, hrun₁, hlinks₁, halloc₁⟩ := setPrev_allocated hyalloc (some x)
          have hxalloc : heap₁.Allocated x :=
            (halloc₁ x).mpr (h.allocated x (List.mem_append_left _ hxmem))
          obtain ⟨heap₂, hrun₂, hlinks₂, halloc₂⟩ := setNext_allocated hxalloc (some y)
          refine ⟨⟨heap₂, { st.lst with crnt := some y }⟩, ?_, ?_, ?_, ?_⟩
          · simp only [hrun₁, hrun₂, ok_bind]
            rfl
          · rw [hlinks₂, hlinks₁]
            exact h.isList.remove_between hx hy
          · intro a
            rw [halloc₂, halloc₁]
          · exact onNode_some (List.mem_append_right xs hymem)

/-- Destroying the node taken out leaves the others. -/
theorem Unlinked.destroyDlListNode {st' : State α} {c : ℕ} (h : Unlinked l st st')
    (hc : c ∉ l) (hold : ∀ a ∈ c :: l, st.heap.Allocated a) :
    ∃ heap, DlList.destroyDlListNode st'.heap c = .ok heap ∧ Linked l ⟨heap, st'.lst⟩ := by
  obtain ⟨cell, hcell⟩ :=
    Option.isSome_iff_exists.mp ((h.allocated c).mpr (hold c List.mem_cons_self))
  have hsame : ∀ a ∈ l, (st'.heap.put c none).cells a = st'.heap.cells a := by
    intro a ha
    have hne : a ≠ c := fun he => hc (he ▸ ha)
    exact Heap.cells_put_of_ne hne none
  refine ⟨st'.heap.put c none, ?_, ?_, ?_, h.crnt⟩
  · rw [DlList.destroyDlListNode, deref_of_cell hcell, ok_bind]
  · apply h.isList.congr
    intro a ha
    simp only [links, hsame a ha, and_self]
  · intro a ha
    rw [Heap.Allocated, hsame a ha]
    exact (h.allocated a).mpr (hold a (List.mem_cons_of_mem c ha))

theorem Linked.crntData (h : Linked l st) : ∃ data, DlList.crntData st = .ok data := by
  cases hc : st.lst.crnt with
  | none => exact ⟨none, by simp only [DlList.crntData, hc]⟩
  | some c =>
      obtain ⟨cell, hcell⟩ := h.exists_crnt hc
      exact ⟨some cell.data, by
        simp only [DlList.crntData, hc, deref_of_cell hcell, ok_bind]⟩

theorem Linked.removeCrnt (h : Linked l st) (hmany : ∀ c, l ≠ [c]) :
    ∃ st' l', DlList.removeCrnt st = .ok st' ∧ Linked l' st' := by
  cases hc : st.lst.crnt with
  | none => exact ⟨st, l, by simp only [DlList.removeCrnt, hc], h⟩
  | some c =>
      obtain ⟨cell, hcell⟩ := h.exists_crnt hc
      obtain ⟨xs, ys, rfl, hprev, hnext⟩ := h.at_crnt hc hcell
      have hrest : xs ++ ys ≠ [] := by
        intro hnil
        obtain ⟨rfl, rfl⟩ := List.append_eq_nil_iff.mp hnil
        exact hmany c rfl
      obtain ⟨st₁, hrun₁, hunlinked⟩ := h.unlinkCrnt hprev hnext hrest
      have hperm : (xs ++ c :: ys).Perm (c :: (xs ++ ys)) := List.perm_middle
      have hnotMem : c ∉ xs ++ ys := (List.nodup_cons.mp (hperm.nodup_iff.mp h.isList.nodup)).1
      have hold : ∀ a ∈ c :: (xs ++ ys), st.heap.Allocated a := by
        intro a ha
        exact h.allocated a (hperm.mem_iff.mpr ha)
      obtain ⟨heap, hrun₂, hlinked⟩ := hunlinked.destroyDlListNode hnotMem hold
      refine ⟨⟨heap, st₁.lst⟩, xs ++ ys, ?_, hlinked⟩
      simp only [DlList.removeCrnt, hc, deref_of_cell hcell, hrun₁, hrun₂, ok_bind]

theorem Linked.deleteCrntDlListNode (h : Linked l st) (hmany : ∀ c, l ≠ [c]) :
    ∃ data st' l', DlList.deleteCrntDlListNode st = .ok (data, st') ∧ Linked l' st' := by
  cases hfirst : st.lst.first with
  | none => exact ⟨none, st, l, by simp only [DlList.deleteCrntDlListNode, hfirst], h⟩
  | some c =>
      obtain ⟨st', l', hrun, hlinked⟩ := h.removeCrnt hmany
      obtain ⟨data, hdata⟩ := hlinked.crntData
      refine ⟨data, st', l', ?_, hlinked⟩
      simp only [DlList.deleteCrntDlListNode, hfirst, hrun, hdata, ok_bind]

/-- The last node is also the first, and what was before it becomes the last. -/
theorem Linked.deleteCrntDlListNode_single {c : ℕ} (h : Linked [c] st) :
    DlList.deleteCrntDlListNode st = .error .invalidAccess := by
  have hfirst : st.lst.first = some c := h.isList.first_eq
  have hcrnt : st.lst.crnt = some c := by
    cases hc : st.lst.crnt with
    | none => exact (List.cons_ne_nil c [] (h.crnt.1.mp hc)).elim
    | some a => rw [List.mem_singleton.mp (h.crnt.2 a hc)]
  obtain ⟨cell, hcell⟩ := h.exists_crnt hcrnt
  have hback : IsList (links st.heap) st.lst.first st.lst.last ([] ++ [c]) := h.isList
  obtain ⟨hprev, hnext⟩ := hback.links
  simp only [links, hcell, Option.bind_some] at hprev hnext
  have hunlink : DlList.unlinkCrnt st cell = .error .invalidAccess := by
    unfold DlList.unlinkCrnt
    rw [hprev, hnext]
    rfl
  have hremove : DlList.removeCrnt st = .error .invalidAccess := by
    simp only [DlList.removeCrnt, hcrnt, deref_of_cell hcell, hunlink, ok_bind, error_bind]
  simp only [DlList.deleteCrntDlListNode, hfirst, hremove, error_bind]

theorem Linked.resetDlList (h : Linked l st) (hl : l ≠ []) (flag : ℤ) :
    ∃ data st', DlList.resetDlList st flag = .ok (data, st') ∧ Linked l st' := by
  have hend : ∃ c ∈ l, (if flag ≠ 0 then st.lst.last else st.lst.first) = some c := by
    split
    · obtain ⟨c, hc⟩ := Option.isSome_iff_exists.mp (List.getLast?_isSome.mpr hl)
      exact ⟨c, List.mem_of_getLast? hc, h.isList.last_eq.trans hc⟩
    · obtain ⟨c, hc⟩ := Option.isSome_iff_exists.mp (List.isSome_head?.mpr hl)
      exact ⟨c, List.mem_of_mem_head? hc, h.isList.first_eq.trans hc⟩
  obtain ⟨c, hmem, hc⟩ := hend
  obtain ⟨cell, hcell⟩ := Option.isSome_iff_exists.mp (h.allocated c hmem)
  refine ⟨some cell.data, ⟨st.heap, { st.lst with crnt := some c }⟩, ?_, ?_⟩
  · simp only [DlList.resetDlList, hc, deref_of_cell hcell, ok_bind]
  · exact ⟨h.isList, h.allocated, onNode_some hmem⟩

theorem Linked.resetDlList_empty (h : Linked [] st) (flag : ℤ) :
    DlList.resetDlList st flag = .error .invalidAccess := by
  have hfirst : st.lst.first = none := h.isList.first_eq
  have hlast : st.lst.last = none := h.isList.last_eq
  simp only [DlList.resetDlList, hfirst, hlast, ite_self]
  rfl

/-! ## Runs -/

/-- Read from both ends the chain is the same, and the cursor is on it. -/
def Consistent (st : State α) : Prop :=
  ∃ l, Path (links st.heap).next st.lst.first l ∧ Path (links st.heap).prev st.lst.last l.reverse ∧
    (∀ a ∈ l, st.heap.Allocated a) ∧ (st.lst.first = none ↔ st.lst.last = none) ∧
    OnNode l st.lst.crnt

/-- The call does not delete the only node and does not reset an empty list. -/
def Call.Safe (st : State α) : Call α → Prop
  | .append _ | .prepend _ | .insert _ => True
  | .delete => st.lst.first = none ∨ st.lst.first ≠ st.lst.last
  | .reset _ => st.lst.first ≠ none

/-- No call goes through `NULL`, and the list is consistent after each. -/
def KeepsConsistent (alloc : NodeAllocator α) (heap : NodeHeap α) (calls : List (Call α)) : Prop :=
  ∀ pre, pre <+: calls → ∃ st, after alloc heap pre = .ok st ∧ Consistent st

def EachSafe (alloc : NodeAllocator α) (heap : NodeHeap α) (calls : List (Call α)) : Prop :=
  ∀ pre call, pre ++ [call] <+: calls → ∀ st, after alloc heap pre = .ok st → call.Safe st

theorem Linked.consistent (h : Linked l st) : Consistent st := by
  refine ⟨l, h.isList.path, h.isList.path_reverse, h.allocated, ?_, h.crnt⟩
  rw [h.isList.first_eq_none_iff, h.isList.last_eq_none_iff]

theorem Linked.single_iff (h : Linked l st) :
    (∃ c, l = [c]) ↔ ¬ Call.Safe st (.delete : Call α) := by
  rw [h.isList.eq_singleton_iff]
  simp only [Call.Safe, not_or, not_not, ne_eq]

theorem Linked.perform (h : Linked l st) (alloc : NodeAllocator α) {call : Call α}
    (hsafe : call.Safe st) :
    ∃ st' l', DlList.perform alloc st call = .ok st' ∧ Linked l' st' := by
  cases call with
  | append data =>
      obtain ⟨node, heap, hnew, hlinked, hfresh⟩ := h.createDlListNode alloc data
      obtain ⟨st', hrun, h', -⟩ := hlinked.appendDlList hfresh
      exact ⟨st', _, by simp only [DlList.perform, hnew, hrun], h'⟩
  | prepend data =>
      obtain ⟨node, heap, hnew, hlinked, hfresh⟩ := h.createDlListNode alloc data
      obtain ⟨st', hrun, h', -⟩ := hlinked.prependDlList hfresh
      exact ⟨st', _, by simp only [DlList.perform, hnew, hrun], h'⟩
  | insert data =>
      obtain ⟨node, heap, hnew, hlinked, hfresh⟩ := h.createDlListNode alloc data
      obtain ⟨out, st', l', hrun, h'⟩ := hlinked.insertDlListNode hfresh
      exact ⟨st', l', by simp only [DlList.perform, hnew, hrun, ok_bind], h'⟩
  | delete =>
      have hmany : ∀ c, l ≠ [c] := fun c hl => h.single_iff.mp ⟨c, hl⟩ hsafe
      obtain ⟨out, st', l', hrun, h'⟩ := h.deleteCrntDlListNode hmany
      exact ⟨st', l', by simp only [DlList.perform, hrun, ok_bind], h'⟩
  | reset flag =>
      have hl : l ≠ [] := fun hnil => hsafe (h.isList.first_eq_none_iff.mpr hnil)
      obtain ⟨out, st', hrun, h'⟩ := h.resetDlList hl flag
      exact ⟨st', l, by simp only [DlList.perform, hrun, ok_bind], h'⟩

theorem Linked.perform_of_not_safe (h : Linked l st) (alloc : NodeAllocator α) {call : Call α}
    (hnot : ¬ call.Safe st) : DlList.perform alloc st call = .error .invalidAccess := by
  cases call with
  | append data => exact (hnot trivial).elim
  | prepend data => exact (hnot trivial).elim
  | insert data => exact (hnot trivial).elim
  | delete =>
      obtain ⟨c, rfl⟩ := h.single_iff.mpr hnot
      simp only [DlList.perform, h.deleteCrntDlListNode_single, error_bind]
  | reset flag =>
      obtain rfl : l = [] := h.isList.first_eq_none_iff.mp (not_not.mp hnot)
      simp only [DlList.perform, h.resetDlList_empty, error_bind]

variable {alloc : NodeAllocator α} {heap : NodeHeap α} {calls : List (Call α)}

theorem after_append (calls more : List (Call α)) :
    after alloc heap (calls ++ more) = after alloc heap calls >>= fun st =>
      more.foldlM (perform alloc) st :=
  List.foldlM_append

theorem after_concat {st : State α} (hrun : after alloc heap calls = .ok st) (call : Call α) :
    after alloc heap (calls ++ [call]) = perform alloc st call := by
  rw [after_append, hrun, ok_bind, List.foldlM_cons]
  exact bind_pure _

theorem isRun_after (alloc : NodeAllocator α) (heap : NodeHeap α) :
    IsRun (fun calls st => after alloc heap calls = .ok st)
      fun st call st' => perform alloc st call = .ok st' where
  concat := by
    intro calls call st'
    have hlast : ∀ st, [call].foldlM (perform alloc) st = perform alloc st call :=
      fun st => bind_pure _
    simp only [after_append, hlast]
    exact bind_eq_ok

/-- Whatever state a run comes to, the list is sound there. -/
theorem linked_after {st : State α} (hrun : after alloc heap calls = .ok st) :
    ∃ l, Linked l st := by
  refine (isRun_after alloc heap).invariant (I := fun _ st => ∃ l, Linked l st) ?_ ?_ hrun
  · rintro st ⟨⟩
    exact ⟨[], linked_create heap⟩
  · rintro pre call st₀ st₁ - - ⟨l₀, h₀⟩ hstep
    by_cases hsafe : call.Safe st₀
    · obtain ⟨st', l', hcall, h'⟩ := h₀.perform alloc hsafe
      obtain rfl : st' = st₁ := by simpa [hcall] using hstep
      exact ⟨l', h'⟩
    · rw [h₀.perform_of_not_safe alloc hsafe] at hstep
      cases hstep

theorem exists_after (hsafe : EachSafe alloc heap calls) :
    ∃ st, after alloc heap calls = .ok st := by
  apply (isRun_after alloc heap).exists_reached ⟨_, rfl⟩
  intro pre call st hpre hrun
  obtain ⟨l, h⟩ := linked_after hrun
  obtain ⟨st', -, hcall, -⟩ := h.perform alloc (hsafe pre call hpre st hrun)
  exact ⟨st', hcall⟩

/-- The list is consistent throughout, unless the only node is deleted or an empty list reset. -/
theorem keepsConsistent_iff (alloc : NodeAllocator α) (heap : NodeHeap α) (calls : List (Call α)) :
    KeepsConsistent alloc heap calls ↔ EachSafe alloc heap calls := by
  constructor
  · intro hkeeps pre call hpre st hrun
    obtain ⟨l, h⟩ := linked_after hrun
    obtain ⟨st', hnext, -⟩ := hkeeps (pre ++ [call]) hpre
    by_contra hnot
    rw [after_concat hrun, h.perform_of_not_safe alloc hnot] at hnext
    cases hnext
  · intro hsafe pre hpre
    have hfront : EachSafe alloc heap pre := by
      intro front call hfront
      exact hsafe front call (hfront.trans hpre)
    obtain ⟨st, hrun⟩ := exists_after hfront
    obtain ⟨l, h⟩ := linked_after hrun
    exact ⟨st, hrun, h.consistent⟩

/-- Appending one node and deleting it goes through `NULL`. -/
theorem not_keepsConsistent_single :
    ¬ KeepsConsistent Heap.Allocator.bump Heap.empty [Call.append 0, Call.delete] := by
  intro h
  obtain ⟨st, hrun, -⟩ := h _ List.prefix_rfl
  have herror : after Heap.Allocator.bump Heap.empty [Call.append 0, Call.delete] =
      .error Halt.invalidAccess := rfl
  rw [herror] at hrun
  cases hrun

end DlList

end SimpleVm
