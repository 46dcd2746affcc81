import SimpleVm.Common.DlListInvariant
import SimpleVm.Lib.Iteration

/-!
# Going through a list

A mark that is kept outside goes through every list that has a node, and the
cursor comes as far as the last node. Neither takes the step off the list: the
first call on an empty list and the call behind the last node look at the data
of `NULL`.
-/

namespace SimpleVm

open LinkedList

universe u

variable {α : Type u}

namespace DlList

/-- The data of the nodes, in the order of the nodes. -/
def dataOf (heap : NodeHeap α) (l : List ℕ) : List α :=
  l.filterMap fun a => (heap.cells a).map DlListNode.data

/-- The cursor is reset, which gives its node's data, and then moved to the end. -/
def CursorDrains (flag : ℤ) (move : State α → Except Halt (Option α × State α)) (st : State α)
    (ds : List α) : Prop :=
  ∃ st', resetDlList st flag = .ok (ds.head?, st') ∧ Drains move st' ds.tail

/-- Both ways of going through the list give its data in order, and then `NULL`. -/
structure TraversesWell (st : State α) (ds : List α) : Prop where
  iterate : Drains (iterateDlList st) .null ds
  forward : CursorDrains 0 nextDlListNode st ds
  backward : CursorDrains 1 prevDlListNode st ds.reverse

/-! ## With a mark -/

section Traversal

variable {l : List ℕ} {st : State α}

theorem dataOf_cons {heap : NodeHeap α} {a : ℕ} {cell : DlListNode α}
    (hcell : heap.cells a = some cell) (l : List ℕ) :
    dataOf heap (a :: l) = cell.data :: dataOf heap l := by
  simp only [dataOf, List.filterMap_cons, hcell, Option.map_some]

theorem links_next {heap : NodeHeap α} {a : ℕ} {cell : DlListNode α}
    (hcell : heap.cells a = some cell) : (links heap).next a = cell.next := by
  simp only [links, hcell, Option.bind_some]

theorem drains_node {a : ℕ} {cell : DlListNode α} (hcell : st.heap.cells a = some cell)
    (halloc : ∀ b ∈ l, st.heap.Allocated b) (hpath : Path (links st.heap).next cell.next l) :
    Drains (iterateDlList st) (.node a) (dataOf st.heap l) := by
  induction l generalizing a cell with
  | nil =>
      have hnext : cell.next = none := by
        cases hnext : cell.next with
        | none => rfl
        | some b => rw [hnext] at hpath; cases hpath
      refine .nil ?_ (show iterateDlList st .done = .ok (none, .done) from rfl)
      simp only [iterateDlList, deref_of_cell hcell, ok_bind, hnext]
  | cons b l ih =>
      obtain ⟨node, hnode⟩ := (halloc b List.mem_cons_self).exists_cell
      generalize hnext : cell.next = p at hpath
      cases hpath with
      | cons hrest =>
          rw [links_next hnode] at hrest
          rw [dataOf_cons hnode]
          have hstep : iterateDlList st (.node a) = .ok (some node.data, .node b) := by
            simp only [iterateDlList, deref_of_cell hcell, ok_bind, hnext, deref_of_cell hnode]
          exact .cons hstep (ih hnode (fun c hc => halloc c (List.mem_cons_of_mem b hc)) hrest)

theorem Linked.drains_iterate (h : Linked l st) (hne : l ≠ []) :
    Drains (iterateDlList st) .null (dataOf st.heap l) := by
  obtain ⟨a, l, rfl⟩ := List.exists_cons_of_ne_nil hne
  obtain ⟨cell, hcell⟩ := (h.allocated a List.mem_cons_self).exists_cell
  have hfirst : st.lst.first = some a := h.isList.first_eq
  have hpath := h.isList.path
  rw [hfirst] at hpath
  cases hpath with
  | cons hrest =>
      rw [links_next hcell] at hrest
      rw [dataOf_cons hcell]
      have hstep : iterateDlList st .null = .ok (some cell.data, .node a) := by
        simp only [iterateDlList, hfirst, deref_of_cell hcell, ok_bind]
      exact .cons hstep
        (drains_node hcell (fun b hb => h.allocated b (List.mem_cons_of_mem a hb)) hrest)

/-- The mark goes through exactly the lists that have a node. -/
theorem Linked.drains_iterate_iff (h : Linked l st) :
    Drains (iterateDlList st) .null (dataOf st.heap l) ↔ l ≠ [] := by
  constructor
  · rintro hdrains rfl
    have hfirst : st.lst.first = none := h.isList.first_eq_none_iff.mpr rfl
    have hfails : iterateDlList st .null = .error .invalidAccess := by
      simp only [iterateDlList, hfirst]
    cases hdrains with
    | nil hnone hdone => rw [hfails] at hnone; cases hnone
  · exact h.drains_iterate

/-! ## With the cursor -/

/-- The cursor comes to the last node that its links lead to, and no further. -/
theorem yields_moveCrnt {link : DlListNode α → Option ℕ} {a : ℕ} {cell : DlListNode α}
    (hcrnt : st.lst.crnt = some a) (hcell : st.heap.cells a = some cell)
    (halloc : ∀ b ∈ l, st.heap.Allocated b)
    (hpath : Path (fun b => (st.heap.cells b).bind link) (link cell) l) :
    ∃ st', Yields (moveCrnt link) st (dataOf st.heap l) st' ∧
      moveCrnt link st' = .error .invalidAccess := by
  induction l generalizing st a cell with
  | nil =>
      refine ⟨st, .nil, ?_⟩
      have hlink : link cell = none := by
        cases hlink : link cell with
        | none => rfl
        | some b => rw [hlink] at hpath; cases hpath
      simp only [moveCrnt, hcrnt, deref_of_cell hcell, ok_bind, hlink]
      rfl
  | cons b l ih =>
      obtain ⟨node, hnode⟩ := (halloc b List.mem_cons_self).exists_cell
      generalize hlink : link cell = p at hpath
      cases hpath with
      | cons hrest =>
          simp only [hnode, Option.bind_some] at hrest
          have hmoved : (⟨st.heap, { st.lst with crnt := some b }⟩ : State α).lst.crnt = some b :=
            rfl
          obtain ⟨st', hyields, hfails⟩ :=
            ih hmoved hnode (fun c hc => halloc c (List.mem_cons_of_mem b hc)) hrest
          refine ⟨st', ?_, hfails⟩
          rw [dataOf_cons hnode]
          refine .cons ?_ hyields
          simp only [moveCrnt, setCrnt, hcrnt, deref_of_cell hcell, ok_bind, hlink,
            deref_of_cell hnode]

theorem moveCrnt_ne_none (link : DlListNode α → Option ℕ) (st st' : State α) :
    moveCrnt link st ≠ .ok (none, st') := by
  intro hrun
  have hset : ∀ crnt, setCrnt st crnt ≠ .ok (none, st') := by
    intro crnt hrun
    obtain ⟨cell, -, hrun⟩ := bind_eq_ok.mp hrun
    cases hrun
  unfold moveCrnt at hrun
  split at hrun
  · exact hset _ hrun
  · obtain ⟨cell, -, hrun⟩ := bind_eq_ok.mp hrun
    exact hset _ hrun

/-- From the end where it is reset the cursor goes through the list, and then through `NULL`. -/
theorem cursor_yields {link : DlListNode α → Option ℕ} {flag : ℤ} {p : Option ℕ}
    (hstart : (if flag ≠ 0 then st.lst.last else st.lst.first) = p)
    (hpath : Path (fun b => (st.heap.cells b).bind link) p l)
    (halloc : ∀ b ∈ l, st.heap.Allocated b) (hne : l ≠ []) :
    ∃ st' st₂ d ds, dataOf st.heap l = d :: ds ∧ DlList.resetDlList st flag = .ok (some d, st') ∧
      Yields (moveCrnt link) st' ds st₂ ∧ moveCrnt link st₂ = .error .invalidAccess := by
  cases hpath with
  | nil => exact absurd rfl hne
  | @cons a l hrest =>
      obtain ⟨cell, hcell⟩ := (halloc a List.mem_cons_self).exists_cell
      simp only [hcell, Option.bind_some] at hrest
      have hmoved : (⟨st.heap, { st.lst with crnt := some a }⟩ : State α).lst.crnt = some a := rfl
      obtain ⟨st₂, hyields, hfails⟩ := yields_moveCrnt hmoved hcell
        (fun b hb => halloc b (List.mem_cons_of_mem a hb)) hrest
      refine ⟨_, st₂, cell.data, dataOf st.heap l, dataOf_cons hcell l, ?_, hyields, hfails⟩
      simp only [DlList.resetDlList, hstart, deref_of_cell hcell, ok_bind]

theorem Linked.cursor_forward (h : Linked l st) (hne : l ≠ []) :
    ∃ st' st₂ d ds, dataOf st.heap l = d :: ds ∧ DlList.resetDlList st 0 = .ok (some d, st') ∧
      Yields nextDlListNode st' ds st₂ ∧ nextDlListNode st₂ = .error .invalidAccess :=
  cursor_yields (if_neg (not_not_intro rfl)) h.isList.path h.allocated hne

theorem Linked.cursor_backward (h : Linked l st) (hne : l ≠ []) :
    ∃ st' st₂ d ds, dataOf st.heap l.reverse = d :: ds ∧
      DlList.resetDlList st 1 = .ok (some d, st') ∧ Yields prevDlListNode st' ds st₂ ∧
      prevDlListNode st₂ = .error .invalidAccess :=
  cursor_yields (if_pos (by decide)) h.isList.path_reverse
    (fun b hb => h.allocated b (List.mem_reverse.mp hb)) (List.reverse_ne_nil_iff.mpr hne)

end Traversal

/-- No list is gone through by its cursor with `NULL` behind the last node. -/
theorem traverses_well_never (st : State α) (ds : List α) : ¬ TraversesWell st ds := by
  rintro ⟨-, ⟨st', -, hdrains⟩, -⟩
  obtain ⟨s, s', hnone⟩ := hdrains.exists_none
  exact moveCrnt_ne_none DlListNode.next s s' hnone

/-- The first call on a new list looks at the data of `NULL`. -/
theorem not_traverses_well_empty :
    ¬ ∀ (l : List ℕ) (st : State ℕ), Linked l st → TraversesWell st (dataOf st.heap l) := by
  intro hall
  have hempty := linked_create (Heap.empty : NodeHeap ℕ)
  exact hempty.drains_iterate_iff.mp (hall [] _ hempty).iterate rfl

end DlList

end SimpleVm
