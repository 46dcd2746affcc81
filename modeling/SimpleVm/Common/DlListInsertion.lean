import SimpleVm.Common.DlListInvariant

/-!
# Inserting behind the current node

The branches are tried in the order prepend, append, splice. A current node
with none before it takes the first of them, so the new node comes in front of
it; everywhere else it comes behind.
-/

namespace SimpleVm

open LinkedList

universe u

variable {α : Type u}

namespace DlList

/-! ## What the nodes hold -/

def nodeData (heap : NodeHeap α) (a : ℕ) : Option α := (heap.cells a).map DlListNode.data

section Data

variable {heap heap' : NodeHeap α} {st st' : State α} {node : ℕ}

theorem nodeData_put {a : ℕ} {cell cell' : DlListNode α} (h : heap.cells a = some cell)
    (hdata : cell'.data = cell.data) : nodeData (heap.put a (some cell')) = nodeData heap := by
  funext b
  by_cases hb : b = a
  · subst hb
    simp [nodeData, h, hdata]
  · rw [nodeData, Heap.cells_put_of_ne hb, nodeData]

theorem setNext_nodeData {p next : Option ℕ} (hrun : setNext heap p next = .ok heap') :
    nodeData heap' = nodeData heap := by
  cases p with
  | none => cases hrun
  | some a =>
      obtain ⟨cell, hcell, hrun⟩ := bind_eq_ok.mp hrun
      obtain rfl := Except.ok.inj hrun
      exact nodeData_put (cell_of_deref hcell) rfl

theorem setPrev_nodeData {p prev : Option ℕ} (hrun : setPrev heap p prev = .ok heap') :
    nodeData heap' = nodeData heap := by
  cases p with
  | none => cases hrun
  | some a =>
      obtain ⟨cell, hcell, hrun⟩ := bind_eq_ok.mp hrun
      obtain rfl := Except.ok.inj hrun
      exact nodeData_put (cell_of_deref hcell) rfl

theorem appendDlList_nodeData (hrun : appendDlList st node = .ok st') :
    nodeData st'.heap = nodeData st.heap := by
  obtain ⟨heap₁, hprev, hrun⟩ := bind_eq_ok.mp hrun
  split at hrun
  · obtain ⟨heap₂, hnext, hrun⟩ := bind_eq_ok.mp hrun
    obtain rfl := Except.ok.inj hrun
    exact (setNext_nodeData hnext).trans (setPrev_nodeData hprev)
  · obtain rfl := Except.ok.inj hrun
    exact setPrev_nodeData hprev

theorem prependDlList_nodeData (hrun : prependDlList st node = .ok st') :
    nodeData st'.heap = nodeData st.heap := by
  obtain ⟨heap₁, hnext, hrun⟩ := bind_eq_ok.mp hrun
  split at hrun
  · obtain ⟨heap₂, hprev, hrun⟩ := bind_eq_ok.mp hrun
    obtain rfl := Except.ok.inj hrun
    exact (setPrev_nodeData hprev).trans (setNext_nodeData hnext)
  · obtain rfl := Except.ok.inj hrun
    exact setNext_nodeData hnext

theorem linkAtCrnt_nodeData {crnt : ℕ} {cell : DlListNode α}
    (hrun : linkAtCrnt st crnt cell node = .ok st') :
    nodeData st'.heap = nodeData st.heap := by
  unfold linkAtCrnt at hrun
  split at hrun
  · exact prependDlList_nodeData hrun
  · exact appendDlList_nodeData hrun
  · obtain ⟨heap₁, hprev₁, hrun⟩ := bind_eq_ok.mp hrun
    obtain ⟨heap₂, hnext₁, hrun⟩ := bind_eq_ok.mp hrun
    obtain ⟨heap₃, hnext₂, hrun⟩ := bind_eq_ok.mp hrun
    obtain ⟨heap₄, hprev₂, hrun⟩ := bind_eq_ok.mp hrun
    obtain rfl := Except.ok.inj hrun
    calc nodeData heap₄ = nodeData heap₃ := setPrev_nodeData hprev₂
      _ = nodeData heap₂ := setNext_nodeData hnext₂
      _ = nodeData heap₁ := setNext_nodeData hnext₁
      _ = nodeData st.heap := setPrev_nodeData hprev₁

theorem insertDlListNode_nodeData {data : Option α}
    (hrun : insertDlListNode st node = .ok (data, st')) :
    nodeData st'.heap = nodeData st.heap := by
  unfold insertDlListNode at hrun
  split at hrun
  · obtain ⟨rfl, rfl⟩ := Prod.mk.inj (Except.ok.inj hrun)
    rfl
  · obtain ⟨cell, -, hrun⟩ := bind_eq_ok.mp hrun
    obtain ⟨st₁, hlink, hrun⟩ := bind_eq_ok.mp hrun
    obtain ⟨new, -, hrun⟩ := bind_eq_ok.mp hrun
    obtain ⟨rfl, rfl⟩ := Prod.mk.inj (Except.ok.inj hrun)
    exact linkAtCrnt_nodeData hlink

end Data

/-! ## Behind the current node -/

/-- From the first node on the nodes are `l`, and from the last one back. -/
structure ReadsBothWays (l : List ℕ) (st : State α) : Prop where
  forward : Path (links st.heap).next st.lst.first l
  backward : Path (links st.heap).prev st.lst.last l.reverse

/-- The new node comes directly behind `c`, which stays current, and no data is touched. -/
def InsertsBehind (st : State α) (node : ℕ) (xs : List ℕ) (c : ℕ) (ys : List ℕ) : Prop :=
  ∃ data st', insertDlListNode st node = .ok (data, st') ∧
    ReadsBothWays (xs ++ c :: node :: ys) st' ∧ st'.lst.crnt = some c ∧
    nodeData st'.heap = nodeData st.heap

/-- A node is inserted behind the current one exactly when that is not the first. -/
theorem inserts_behind_iff {st : State α} {xs ys : List ℕ} {c node : ℕ}
    (h : Linked (xs ++ c :: ys) st) (hcrnt : st.lst.crnt = some c)
    (hfresh : Fresh (xs ++ c :: ys) st node) : InsertsBehind st node xs c ys ↔ xs ≠ [] := by
  obtain ⟨data, st', hrun, hlinked, hc⟩ := h.insertAtCrnt hfresh hcrnt
  constructor
  · rintro ⟨data', st₂, hrun', hreads, -, -⟩ rfl
    obtain ⟨-, rfl⟩ := Prod.mk.inj (Except.ok.inj (hrun.symm.trans hrun'))
    have hnodes : insertedAt [] c node ys = c :: node :: ys :=
      hlinked.isList.path.unique hreads.forward
    rw [insertedAt, if_pos rfl] at hnodes
    have hsame : node = c := (List.cons.inj hnodes).1
    exact hfresh.notMem (hsame ▸ List.mem_cons_self)
  · intro hne
    rw [insertedAt, if_neg hne] at hlinked
    exact ⟨data, st', hrun, ⟨hlinked.isList.path, hlinked.isList.path_reverse⟩, hc,
      insertDlListNode_nodeData hrun⟩

/-- Two nodes with the second one current, and one that is not in the list. -/
def twoNodes : State ℕ where
  heap := ((Heap.empty.put 0 (some ⟨10, some 1, none⟩)).put 1 (some ⟨20, none, some 0⟩)).put 2
    (some ⟨30, none, none⟩)
  lst := ⟨some 0, some 1, some 1⟩

theorem linked_twoNodes : Linked [0, 1] twoNodes where
  isList := ⟨by decide, rfl, rfl, rfl, rfl, rfl, rfl, trivial⟩
  allocated := by
    intro a ha
    rcases List.mem_pair.mp ha with rfl | rfl
    · rfl
    · rfl
  crnt := onNode_some (by decide)

theorem fresh_twoNodes : Fresh [0, 1] twoNodes 2 := ⟨by decide, rfl, rfl, rfl⟩

theorem inserts_behind_twoNodes : InsertsBehind twoNodes 2 [0] 1 [] ↔ [0] ≠ ([] : List ℕ) :=
  inserts_behind_iff linked_twoNodes rfl fresh_twoNodes

/-- With the first of the two nodes current the new one becomes the first. -/
theorem not_inserts_behind_first :
    ¬ ∀ (st : State ℕ) (node : ℕ) (xs : List ℕ) (c : ℕ) (ys : List ℕ),
      Linked (xs ++ c :: ys) st → st.lst.crnt = some c → Fresh (xs ++ c :: ys) st node →
        InsertsBehind st node xs c ys := by
  intro hall
  have hlinked : Linked ([] ++ 0 :: [1]) (⟨twoNodes.heap, ⟨some 0, some 1, some 0⟩⟩ : State ℕ) :=
    ⟨linked_twoNodes.isList, linked_twoNodes.allocated, onNode_some (by decide)⟩
  have hfresh : Fresh ([] ++ 0 :: [1]) (⟨twoNodes.heap, ⟨some 0, some 1, some 0⟩⟩ : State ℕ) 2 :=
    ⟨by decide, rfl, rfl, rfl⟩
  obtain ⟨data, st', hrun, hreads, -, -⟩ := hall _ 2 [] 0 [1] hlinked rfl hfresh
  obtain ⟨data', st₂, hrun', hlinked', -⟩ := hlinked.insertAtCrnt hfresh rfl
  obtain ⟨-, rfl⟩ := Prod.mk.inj (Except.ok.inj (hrun'.symm.trans hrun))
  exact absurd (hlinked'.isList.path.unique hreads.forward) (by decide)

end DlList

end SimpleVm
