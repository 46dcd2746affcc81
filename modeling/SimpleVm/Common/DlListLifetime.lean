import Mathlib.Data.List.TakeWhile
import SimpleVm.Common.DlListInvariant

/-!
# The memory of a doubly linked list

A node is the caller's until it is linked, and then the list's until it is
taken out or the list is destroyed. An insertion does not link a node when
there is none in the list yet, and the caller of such an insertion still has to
free it.
-/

namespace SimpleVm

open LinkedList Heap

universe u

variable {α : Type u}

namespace DlList

/-! ## The source -/

/-- The loop of `destroy_dl_list`, which reads the link of a node before it destroys it. -/
def destroyNodes : ℕ → NodeHeap α → Option ℕ → Except Halt (NodeHeap α)
  | 0, _, _ => .error .diverges
  | _ + 1, heap, none => .ok heap
  | rounds + 1, heap, some ptr => do
      let node ← deref heap (some ptr)
      let heap ← destroyDlListNode heap ptr
      destroyNodes rounds heap node.next

/-- No heap has more nodes than addresses below its bound. -/
def destroyDlList (st : State α) : Except Halt (NodeHeap α) :=
  destroyNodes (st.heap.bound + 1) st.heap st.lst.first

/-! ## What is written to -/

section Frames

variable {l : List ℕ} {heap heap' : NodeHeap α} {st st' : State α} {p q : Option ℕ}

theorem agreesOff_setNext (hrun : setNext heap p q = .ok heap') (hp : ∀ a, p = some a → a ∈ l) :
    AgreesOff l heap heap' := by
  cases p with
  | none => cases hrun
  | some a =>
      obtain ⟨node, -, hput⟩ := bind_eq_ok.mp hrun
      cases hput
      exact agreesOff_put (hp a rfl) heap _

theorem agreesOff_setPrev (hrun : setPrev heap p q = .ok heap') (hp : ∀ a, p = some a → a ∈ l) :
    AgreesOff l heap heap' := by
  cases p with
  | none => cases hrun
  | some a =>
      obtain ⟨node, -, hput⟩ := bind_eq_ok.mp hrun
      cases hput
      exact agreesOff_put (hp a rfl) heap _

theorem agreesOff_appendDlList {node : ℕ} (hrun : appendDlList st node = .ok st')
    (hnode : node ∈ l) (hlast : ∀ a, st.lst.last = some a → a ∈ l) :
    AgreesOff l st.heap st'.heap := by
  obtain ⟨heap₁, hfirst, hrest⟩ := bind_eq_ok.mp hrun
  have hstart := agreesOff_setPrev hfirst fun a ha => Option.some.inj ha ▸ hnode
  split at hrest
  · next last hsome =>
      obtain ⟨heap₂, hsecond, hend⟩ := bind_eq_ok.mp hrest
      cases hend
      exact hstart.trans (agreesOff_setNext hsecond fun a ha => Option.some.inj ha ▸ hlast _ hsome)
  · cases hrest
    exact hstart

theorem agreesOff_prependDlList {node : ℕ} (hrun : prependDlList st node = .ok st')
    (hnode : node ∈ l) (hfirst : ∀ a, st.lst.first = some a → a ∈ l) :
    AgreesOff l st.heap st'.heap := by
  obtain ⟨heap₁, hnext, hrest⟩ := bind_eq_ok.mp hrun
  have hstart := agreesOff_setNext hnext fun a ha => Option.some.inj ha ▸ hnode
  split at hrest
  · next first hsome =>
      obtain ⟨heap₂, hsecond, hend⟩ := bind_eq_ok.mp hrest
      cases hend
      exact hstart.trans (agreesOff_setPrev hsecond fun a ha => Option.some.inj ha ▸ hfirst _ hsome)
  · cases hrest
    exact hstart

theorem agreesOff_linkAtCrnt {node crnt : ℕ} {cell : DlListNode α}
    (hrun : linkAtCrnt st crnt cell node = .ok st') (hnode : node ∈ l) (hcrnt : crnt ∈ l)
    (hfirst : ∀ a, st.lst.first = some a → a ∈ l) (hlast : ∀ a, st.lst.last = some a → a ∈ l)
    (hnext : ∀ a, cell.next = some a → a ∈ l) : AgreesOff l st.heap st'.heap := by
  unfold linkAtCrnt at hrun
  split at hrun
  · exact agreesOff_prependDlList hrun hnode hfirst
  · exact agreesOff_appendDlList hrun hnode hlast
  · next next _ hsome =>
      obtain ⟨heap₁, hrun₁, hrest⟩ := bind_eq_ok.mp hrun
      obtain ⟨heap₂, hrun₂, hrest⟩ := bind_eq_ok.mp hrest
      obtain ⟨heap₃, hrun₃, hrest⟩ := bind_eq_ok.mp hrest
      obtain ⟨heap₄, hrun₄, hend⟩ := bind_eq_ok.mp hrest
      cases hend
      have hone : ∀ {b : ℕ}, b ∈ l → ∀ a, some b = some a → a ∈ l := by
        rintro b hb a ⟨⟩
        exact hb
      have hstart := (agreesOff_setPrev hrun₁ (hone hnode)).trans
        (agreesOff_setNext hrun₂ (hone hnode))
      exact (hstart.trans (agreesOff_setNext hrun₃ (hone hcrnt))).trans
        (agreesOff_setPrev hrun₄ (hone (hnext next hsome)))

theorem agreesOff_unlinkCrnt {cell : DlListNode α} (hrun : unlinkCrnt st cell = .ok st')
    (hnext : ∀ a, cell.next = some a → a ∈ l) (hprev : ∀ a, cell.prev = some a → a ∈ l) :
    AgreesOff l st.heap st'.heap := by
  unfold unlinkCrnt at hrun
  dsimp only at hrun
  cases hn : cell.next with
  | none =>
      simp only [hn] at hrun
      obtain ⟨heap₁, hrun₁, hend⟩ := bind_eq_ok.mp hrun
      cases hend
      exact agreesOff_setNext hrun₁ hprev
  | some next =>
      have hnext' : ∀ a, some next = some a → a ∈ l := fun a ha => hnext a (hn.trans ha)
      cases hp : cell.prev with
      | none =>
          simp only [hn, hp] at hrun
          obtain ⟨heap₁, hrun₁, hend⟩ := bind_eq_ok.mp hrun
          cases hend
          exact agreesOff_setPrev hrun₁ hnext'
      | some prev =>
          simp only [hn, hp] at hrun
          obtain ⟨heap₁, hrun₁, hrest⟩ := bind_eq_ok.mp hrun
          obtain ⟨heap₂, hrun₂, hend⟩ := bind_eq_ok.mp hrest
          cases hend
          exact (agreesOff_setPrev hrun₁ hnext').trans
            (agreesOff_setNext hrun₂ fun a ha => hprev a (hp.trans ha))

end Frames

/-! ## Whose the nodes are -/

/-- The nodes `l` are the list's and the nodes `lost` the caller's, and what else there is on the
heap was there before. -/
structure Owns (base : NodeHeap α) (lost l : List ℕ) (st : State α) : Prop where
  linked : Linked l st
  nodup : (lost ++ l).Nodup
  new : ∀ a ∈ lost ++ l, base.cells a = none
  kept : ∀ a ∈ lost, st.heap.Allocated a
  others : ∀ a ∉ lost ++ l, st.heap.cells a = base.cells a

section Steps

variable {base : NodeHeap α} {lost l l' : List ℕ} {st st' : State α}

theorem owns_create (base : NodeHeap α) : Owns base [] [] ⟨base, createDlList⟩ where
  linked := linked_create base
  nodup := List.nodup_nil
  new := List.forall_mem_nil _
  kept := List.forall_mem_nil _
  others := fun _ _ => rfl

/-- A new node is the caller's. -/
theorem Owns.create (h : Owns base lost l st) (alloc : NodeAllocator α) (data : α) :
    ∃ node heap, createDlListNode alloc st.heap data = (node, heap) ∧
      Owns base (node :: lost) l ⟨heap, st.lst⟩ ∧ Fresh l ⟨heap, st.lst⟩ node := by
  obtain ⟨node, heap, hnew, hlinked, hfresh⟩ := h.linked.createDlListNode alloc data
  refine ⟨node, heap, hnew, ?_, hfresh⟩
  obtain ⟨rfl, rfl⟩ := Prod.mk.inj hnew
  have hunused := alloc.unused st.heap
  have hlost : alloc.pick st.heap ∉ lost := fun hmem => (h.kept _ hmem).ne hunused rfl
  have hfree : alloc.pick st.heap ∉ lost ++ l := by
    simp [hlost, hfresh.notMem]
  refine ⟨hlinked, List.nodup_cons.mpr ⟨hfree, h.nodup⟩, ?_, ?_, ?_⟩
  · refine List.forall_mem_cons.mpr ⟨?_, h.new⟩
    rw [← h.others _ hfree, hunused]
  · refine List.forall_mem_cons.mpr ⟨hfresh.allocated, ?_⟩
    intro a ha
    have hne := (h.kept a ha).ne hunused
    rw [Heap.Allocated, cells_put_of_ne hne]
    exact h.kept a ha
  · intro a ha
    obtain ⟨hne, hmem⟩ := not_or.mp (List.mem_cons.not.mp ha)
    exact (cells_put_of_ne hne _).trans (h.others a hmem)

/-- A node that is linked becomes the list's. -/
theorem Owns.link {node : ℕ} (h : Owns base (node :: lost) l st) (hlinked : Linked l' st')
    (hperm : l'.Perm (node :: l)) (hoff : AgreesOff (node :: l) st.heap st'.heap) :
    Owns base lost l' st' := by
  have hall : (lost ++ l').Perm (node :: lost ++ l) :=
    (hperm.append_left lost).trans List.perm_middle
  have hlost : ∀ a ∈ lost, a ∉ node :: l := by
    have hdisj := List.disjoint_of_nodup_append (hall.nodup_iff.mpr h.nodup)
    exact fun a ha hmem => hdisj ha (hperm.mem_iff.mpr hmem)
  refine ⟨hlinked, hall.nodup_iff.mpr h.nodup, ?_, ?_, ?_⟩
  · exact fun a ha => h.new a (hall.mem_iff.mp ha)
  · intro a ha
    rw [Heap.Allocated, hoff a (hlost a ha)]
    exact h.kept a (List.mem_cons_of_mem node ha)
  · intro a ha
    have hother : a ∉ node :: l := by
      exact fun hmem => ha (List.mem_append_right lost (hperm.mem_iff.mpr hmem))
    exact (hoff a hother).trans (h.others a fun hmem => ha (hall.mem_iff.mpr hmem))

/-- A node that is taken out is freed. -/
theorem Owns.remove {c : ℕ} (h : Owns base lost l st) (hlinked : Linked l' st')
    (hperm : l.Perm (c :: l')) (hoff : AgreesOff l st.heap st'.heap)
    (hfreed : st'.heap.cells c = none) : Owns base lost l' st' := by
  have hall : (lost ++ l).Perm (c :: (lost ++ l')) :=
    (hperm.append_left lost).trans List.perm_middle
  have hnodup := List.nodup_cons.mp (hall.nodup_iff.mp h.nodup)
  refine ⟨hlinked, hnodup.2, ?_, ?_, ?_⟩
  · exact fun a ha => h.new a (hall.mem_iff.mpr (List.mem_cons_of_mem c ha))
  · intro a ha
    have hdisj := List.disjoint_of_nodup_append h.nodup
    rw [Heap.Allocated, hoff a (hdisj ha)]
    exact h.kept a ha
  · intro a ha
    by_cases hac : a = c
    · rw [hac, hfreed]
      exact (h.new c (hall.mem_iff.mpr List.mem_cons_self)).symm
    · have hother : a ∉ lost ++ l := by
        rw [hall.mem_iff, List.mem_cons, not_or]
        exact ⟨hac, ha⟩
      exact (hoff a fun hmem => hother (List.mem_append_right lost hmem)).trans (h.others a hother)

theorem Linked.first_mem (h : Linked l st) : ∀ a, st.lst.first = some a → a ∈ l := by
  intro a ha
  exact List.mem_of_mem_head? (h.isList.first_eq.symm.trans ha)

theorem Linked.last_mem (h : Linked l st) : ∀ a, st.lst.last = some a → a ∈ l := by
  intro a ha
  exact List.mem_of_getLast? (h.isList.last_eq.symm.trans ha)

theorem Linked.exists_crnt_split (h : Linked l st) (hne : l ≠ []) :
    ∃ c xs ys cell, st.lst.crnt = some c ∧ l = xs ++ c :: ys ∧ st.heap.cells c = some cell ∧
      cell.prev = xs.getLast? ∧ cell.next = ys.head? := by
  obtain ⟨c, hc⟩ := Option.ne_none_iff_exists'.mp fun hnone => hne (h.crnt.1.mp hnone)
  obtain ⟨cell, hcell⟩ := h.exists_crnt hc
  obtain ⟨xs, ys, hl, hprev, hnext⟩ := h.at_crnt hc hcell
  exact ⟨c, xs, ys, cell, hc, hl, hcell, hprev, hnext⟩

/-! ## One call -/

theorem perm_insertedAt (xs : List ℕ) (c node : ℕ) (ys : List ℕ) :
    (insertedAt xs c node ys).Perm (node :: (xs ++ c :: ys)) := by
  rw [insertedAt]
  split
  · next hxs => simp [hxs]
  · have hswap : (c :: node :: ys).Perm (node :: c :: ys) := List.Perm.swap node c ys
    exact (hswap.append_left xs).trans List.perm_middle

theorem Owns.append (h : Owns base lost l st) (alloc : NodeAllocator α) (data : α) :
    ∃ st' l', perform alloc st (.append data) = .ok st' ∧ Owns base lost l' st' ∧ l' ≠ [] := by
  obtain ⟨node, heap, hnew, howns, hfresh⟩ := h.create alloc data
  obtain ⟨st', hrun, hlinked, -⟩ := howns.linked.appendDlList hfresh
  refine ⟨st', l ++ [node], ?_, ?_, List.append_ne_nil_of_right_ne_nil l (List.cons_ne_nil _ _)⟩
  · simp only [perform, hnew, hrun]
  · apply howns.link hlinked (List.perm_append_singleton node l)
    apply agreesOff_appendDlList hrun List.mem_cons_self
    exact fun a ha => List.mem_cons_of_mem node (howns.linked.last_mem a ha)

theorem Owns.prepend (h : Owns base lost l st) (alloc : NodeAllocator α) (data : α) :
    ∃ st' l', perform alloc st (.prepend data) = .ok st' ∧ Owns base lost l' st' ∧ l' ≠ [] := by
  obtain ⟨node, heap, hnew, howns, hfresh⟩ := h.create alloc data
  obtain ⟨st', hrun, hlinked, -⟩ := howns.linked.prependDlList hfresh
  refine ⟨st', node :: l, ?_, ?_, List.cons_ne_nil node l⟩
  · simp only [perform, hnew, hrun]
  · apply howns.link hlinked (List.Perm.refl _)
    apply agreesOff_prependDlList hrun List.mem_cons_self
    exact fun a ha => List.mem_cons_of_mem node (howns.linked.first_mem a ha)

theorem Owns.insert (h : Owns base lost l st) (hne : l ≠ []) (alloc : NodeAllocator α) (data : α) :
    ∃ st' l', perform alloc st (.insert data) = .ok st' ∧ Owns base lost l' st' ∧ l' ≠ [] := by
  obtain ⟨node, heap, hnew, howns, hfresh⟩ := h.create alloc data
  obtain ⟨c, xs, ys, cell, hc, rfl, hcell, -, hnext⟩ := howns.linked.exists_crnt_split hne
  obtain ⟨st', hrun, hlinked, -⟩ := howns.linked.linkAtCrnt hfresh hc hcell
  have hmem := mem_insertedAt xs c node ys
  obtain ⟨new, hcellNew⟩ := (hlinked.allocated node hmem).exists_cell
  have hcrnt : st.lst.crnt = some c := hc
  have hcell' : heap.cells c = some cell := hcell
  refine ⟨st', insertedAt xs c node ys, ?_, ?_, List.ne_nil_of_mem hmem⟩
  · simp only [perform, insertDlListNode, hnew, hcrnt, deref_of_cell hcell', hrun,
      deref_of_cell hcellNew, ok_bind]
  · apply howns.link hlinked (perm_insertedAt xs c node ys)
    apply agreesOff_linkAtCrnt hrun List.mem_cons_self
    · simp
    · exact fun a ha => List.mem_cons_of_mem node (howns.linked.first_mem a ha)
    · exact fun a ha => List.mem_cons_of_mem node (howns.linked.last_mem a ha)
    · intro a ha
      have hys : a ∈ ys := List.mem_of_mem_head? (hnext.symm.trans ha)
      simp [hys]

/-- There is no current node, and the new one stays with the caller. -/
theorem Owns.insert_empty (h : Owns base lost [] st) (alloc : NodeAllocator α) (data : α) :
    ∃ st', perform alloc st (.insert data) = .ok st' ∧
      Owns base ((createDlListNode alloc st.heap data).1 :: lost) [] st' := by
  obtain ⟨node, heap, hnew, howns, -⟩ := h.create alloc data
  have hcrnt : st.lst.crnt = none := h.linked.crnt.1.mpr rfl
  rw [hnew]
  exact ⟨_, by simp only [perform, insertDlListNode, hnew, hcrnt, ok_bind], howns⟩

theorem Owns.delete (h : Owns base lost l st) (hmany : ∀ c, l ≠ [c]) (hne : l ≠ [])
    (alloc : NodeAllocator α) :
    ∃ st' l', perform alloc st .delete = .ok st' ∧ Owns base lost l' st' ∧ l' ≠ [] := by
  obtain ⟨c, xs, ys, cell, hc, rfl, hcell, hprev, hnext⟩ := h.linked.exists_crnt_split hne
  have hrest : xs ++ ys ≠ [] := by
    intro hnil
    obtain ⟨rfl, rfl⟩ := List.append_eq_nil_iff.mp hnil
    exact hmany c rfl
  obtain ⟨st₁, hunlink, hunlinked⟩ := h.linked.unlinkCrnt hprev hnext hrest
  have hperm : (xs ++ c :: ys).Perm (c :: (xs ++ ys)) := List.perm_middle
  have hnotMem := (List.nodup_cons.mp (hperm.nodup_iff.mp h.linked.isList.nodup)).1
  obtain ⟨heap, hdestroy, hlinked⟩ := hunlinked.destroyDlListNode hnotMem
    fun a ha => h.linked.allocated a (hperm.mem_iff.mpr ha)
  obtain ⟨data, hdata⟩ := hlinked.crntData
  have hfirst : ∃ a, st.lst.first = some a := by
    obtain ⟨a, ha⟩ := Option.isSome_iff_exists.mp (List.isSome_head?.mpr hne)
    exact ⟨a, h.linked.isList.first_eq.trans ha⟩
  obtain ⟨a, ha⟩ := hfirst
  refine ⟨⟨heap, st₁.lst⟩, xs ++ ys, ?_, ?_, hrest⟩
  · simp only [perform, deleteCrntDlListNode, ha, removeCrnt, hc, deref_of_cell hcell, hunlink,
      hdestroy, hdata, ok_bind]
  · obtain ⟨old, -, hput⟩ := bind_eq_ok.mp hdestroy
    cases hput
    have hstart : AgreesOff (xs ++ c :: ys) st.heap st₁.heap := by
      apply agreesOff_unlinkCrnt hunlink
      · intro b hb
        have hys : b ∈ ys := List.mem_of_mem_head? (hnext.symm.trans hb)
        simp [hys]
      · intro b hb
        have hxs : b ∈ xs := List.mem_of_getLast? (hprev.symm.trans hb)
        simp [hxs]
    have hc' : c ∈ xs ++ c :: ys := List.mem_append_cons_self
    exact h.remove hlinked hperm (hstart.trans (agreesOff_put hc' _ _)) (cells_put_self _)

theorem Owns.reset (h : Owns base lost l st) (hne : l ≠ []) (flag : ℤ) (alloc : NodeAllocator α) :
    ∃ st', perform alloc st (.reset flag) = .ok st' ∧ Owns base lost l st' := by
  obtain ⟨data, st', hrun, hlinked⟩ := h.linked.resetDlList hne flag
  refine ⟨st', by simp only [perform, hrun, ok_bind], ?_⟩
  obtain ⟨cell, -, hend⟩ := bind_eq_ok.mp hrun
  cases hend
  exact ⟨hlinked, h.nodup, h.new, h.kept, h.others⟩

end Steps

/-! ## Whole runs -/

/-- The calls that link a node to an empty list. -/
def Call.links : Call α → Bool
  | .append _ | .prepend _ => true
  | _ => false

def Call.inserts : Call α → Bool
  | .insert _ => true
  | _ => false

/-- The insertions in front of the first node. -/
def notLinked (calls : List (Call α)) : ℕ :=
  (calls.takeWhile fun call => !call.links).countP Call.inserts

/-- The node was made for an insertion that found the list empty. -/
def NeverLinked (alloc : NodeAllocator α) (base : NodeHeap α) (calls : List (Call α))
    (a : ℕ) : Prop :=
  ∃ before data st, before ++ [.insert data] <+: calls ∧ after alloc base before = .ok st ∧
    st.lst.first = none ∧ a = (createDlListNode alloc st.heap data).1

theorem NeverLinked.append {alloc : NodeAllocator α} {base : NodeHeap α} {calls : List (Call α)}
    {a : ℕ} (h : NeverLinked alloc base calls a) (more : List (Call α)) :
    NeverLinked alloc base (calls ++ more) a := by
  obtain ⟨before, data, st, hbefore, hrest⟩ := h
  exact ⟨before, data, st, hbefore.trans (List.prefix_append calls more), hrest⟩

section Runs

variable {base : NodeHeap α} {lost l : List ℕ} {st st' : State α} {calls : List (Call α)}
  {call : Call α} {alloc : NodeAllocator α}

theorem notLinked_concat (calls : List (Call α)) (call : Call α) :
    notLinked (calls ++ [call]) =
      notLinked calls + if (∀ c ∈ calls, c.links = false) ∧ call.inserts then 1 else 0 := by
  by_cases hall : ∀ c ∈ calls, c.links = false
  · have hkeep : ∀ c ∈ calls, (!c.links) = true := by simpa using hall
    have htake : (calls ++ [call]).takeWhile (fun c => !c.links) =
        calls.takeWhile (fun c => !c.links) ++ [call].takeWhile fun c => !c.links := by
      rw [List.takeWhile_append_of_pos hkeep, List.takeWhile_eq_self_iff.mpr hkeep]
    rw [notLinked, notLinked, htake, List.countP_append]
    simp only [eq_true hall, true_and]
    cases call <;> rfl
  · have htake : (calls ++ [call]).takeWhile (fun c => !c.links) =
        calls.takeWhile fun c => !c.links := by
      rw [List.takeWhile_append, if_neg]
      intro hlen
      apply hall
      have hself := List.takeWhile_eq_self_iff.mp
        ((List.takeWhile_prefix fun c : Call α => !c.links).eq_of_length hlen)
      simpa using hself
    rw [notLinked, notLinked, htake, if_neg fun h => hall h.1, Nat.add_zero]

/-- One call on a list with nodes leaves nodes in it, and none with the caller. -/
theorem Owns.perform (h : Owns base lost l st) (hne : l ≠ [])
    (hrun : DlList.perform alloc st call = .ok st') : ∃ l', Owns base lost l' st' ∧ l' ≠ [] := by
  have hdone : ∀ {st₁ l'}, DlList.perform alloc st call = .ok st₁ → Owns base lost l' st₁ →
      l' ≠ [] → ∃ l', Owns base lost l' st' ∧ l' ≠ [] := by
    intro st₁ l' hrun₁ howns hl'
    obtain rfl := Except.ok.inj (hrun.symm.trans hrun₁)
    exact ⟨l', howns, hl'⟩
  cases call with
  | append data =>
      obtain ⟨st₁, l', hrun₁, howns, hl'⟩ := h.append alloc data
      exact hdone hrun₁ howns hl'
  | prepend data =>
      obtain ⟨st₁, l', hrun₁, howns, hl'⟩ := h.prepend alloc data
      exact hdone hrun₁ howns hl'
  | insert data =>
      obtain ⟨st₁, l', hrun₁, howns, hl'⟩ := h.insert hne alloc data
      exact hdone hrun₁ howns hl'
  | delete =>
      have hmany : ∀ c, l ≠ [c] := by
        rintro c rfl
        rw [DlList.perform, h.linked.deleteCrntDlListNode_single] at hrun
        cases hrun
      obtain ⟨st₁, l', hrun₁, howns, hl'⟩ := h.delete hmany hne alloc
      exact hdone hrun₁ howns hl'
  | reset flag =>
      obtain ⟨st₁, hrun₁, howns⟩ := h.reset hne flag alloc
      exact hdone hrun₁ howns hne

/-- One call on an empty list. -/
theorem Owns.perform_empty (h : Owns base lost [] st)
    (hrun : DlList.perform alloc st call = .ok st') :
    ∃ more l', Owns base (more ++ lost) l' st' ∧ more.length = (if call.inserts then 1 else 0) ∧
      (l' = [] ↔ call.links = false) ∧
      ∀ a ∈ more, ∃ data, call = .insert data ∧ a = (createDlListNode alloc st.heap data).1 := by
  cases call with
  | append data =>
      obtain ⟨st₁, l', hrun₁, howns, hl'⟩ := h.append alloc data
      obtain rfl := Except.ok.inj (hrun.symm.trans hrun₁)
      exact ⟨[], l', howns, rfl, by simp [hl', Call.links], List.forall_mem_nil _⟩
  | prepend data =>
      obtain ⟨st₁, l', hrun₁, howns, hl'⟩ := h.prepend alloc data
      obtain rfl := Except.ok.inj (hrun.symm.trans hrun₁)
      exact ⟨[], l', howns, rfl, by simp [hl', Call.links], List.forall_mem_nil _⟩
  | insert data =>
      obtain ⟨st₁, hrun₁, howns⟩ := h.insert_empty alloc data
      obtain rfl := Except.ok.inj (hrun.symm.trans hrun₁)
      exact ⟨[_], [], howns, rfl, by simp [Call.links],
        List.forall_mem_singleton.mpr ⟨data, rfl, rfl⟩⟩
  | delete =>
      have hfirst : st.lst.first = none := h.linked.isList.first_eq
      have hnothing : DlList.perform alloc st .delete = .ok st := by
        simp only [DlList.perform, deleteCrntDlListNode, hfirst, ok_bind]
      obtain rfl := Except.ok.inj (hrun.symm.trans hnothing)
      exact ⟨[], [], h, rfl, by simp [Call.links], List.forall_mem_nil _⟩
  | reset flag =>
      rw [DlList.perform, h.linked.resetDlList_empty] at hrun
      cases hrun

theorem owns_after (hrun : after alloc base calls = .ok st) :
    ∃ lost l, Owns base lost l st ∧ lost.length = notLinked calls ∧
      (l = [] ↔ ∀ call ∈ calls, call.links = false) ∧
      ∀ a ∈ lost, NeverLinked alloc base calls a := by
  refine (isRun_after alloc base).invariant (I := fun calls st => ∃ lost l, Owns base lost l st ∧
    lost.length = notLinked calls ∧ (l = [] ↔ ∀ call ∈ calls, call.links = false) ∧
    ∀ a ∈ lost, NeverLinked alloc base calls a) ?_ ?_ hrun
  · rintro st ⟨⟩
    exact ⟨[], [], owns_create base, rfl, by simp, List.forall_mem_nil _⟩
  · rintro calls call st₀ st₁ - hrun₀ ⟨lost, l, howns, hlength, hempty, hlost⟩ hstep
    have hlost' : ∀ a ∈ lost, NeverLinked alloc base (calls ++ [call]) a :=
      fun a ha => (hlost a ha).append [call]
    by_cases hl : l = []
    · subst hl
      have hnone := hempty.mp rfl
      have hfirst : st₀.lst.first = none := howns.linked.isList.first_eq
      obtain ⟨more, l', howns', hmore, hl', hmade⟩ := howns.perform_empty hstep
      refine ⟨more ++ lost, l', howns', ?_, ?_, List.forall_mem_append.mpr ⟨?_, hlost'⟩⟩
      · rw [List.length_append, hmore, hlength, notLinked_concat, Nat.add_comm]
        simp only [eq_true hnone, true_and]
      · rw [hl', List.forall_mem_append, List.forall_mem_singleton]
        exact (and_iff_right hnone).symm
      · intro a ha
        obtain ⟨data, rfl, hnode⟩ := hmade a ha
        exact ⟨calls, data, st₀, List.prefix_refl _, hrun₀, hfirst, hnode⟩
    · have hsome : ¬ ∀ call ∈ calls, call.links = false := fun h => hl (hempty.mpr h)
      obtain ⟨l', howns', hl'⟩ := howns.perform hl hstep
      refine ⟨lost, l', howns', ?_, ?_, hlost'⟩
      · rw [notLinked_concat, if_neg fun h => hsome h.1, hlength, Nat.add_zero]
      · rw [List.forall_mem_append]
        exact ⟨fun h => absurd h hl', fun h => absurd h.1 hsome⟩

end Runs

/-! ## Destroying the list -/

section Destroy

variable {heap : NodeHeap α} {l : List ℕ} {p : Option ℕ}

/-- Every node is destroyed once, in the order of the list. -/
theorem destroyNodes_path (hpath : Path (links heap).next p l) (hnodup : l.Nodup)
    (halloc : ∀ a ∈ l, heap.Allocated a) {rounds : ℕ} (hrounds : l.length < rounds) :
    ∃ heap', destroyNodes rounds heap p = .ok heap' ∧ (∀ a ∈ l, heap'.cells a = none) ∧
      AgreesOff l heap heap' := by
  induction l generalizing heap p rounds with
  | nil =>
      cases hpath
      obtain ⟨rounds, rfl⟩ := Nat.exists_eq_succ_of_ne_zero (Nat.ne_of_gt hrounds)
      exact ⟨heap, rfl, List.forall_mem_nil _, .refl [] heap⟩
  | cons a l ih =>
      obtain ⟨rounds, rfl⟩ := Nat.exists_eq_succ_of_ne_zero (Nat.ne_zero_of_lt hrounds)
      obtain ⟨ha, hnodup⟩ := List.nodup_cons.mp hnodup
      obtain ⟨node, hnode⟩ := (halloc a List.mem_cons_self).exists_cell
      have hother : ∀ b ∈ l, (heap.put a none).cells b = heap.cells b := by
        intro b hb
        exact cells_put_of_ne (ne_of_mem_of_not_mem hb ha) none
      have hrest : Path (links (heap.put a none)).next node.next l := by
        cases hpath with
        | cons hrest =>
            have hnext : (links heap).next a = node.next := by simp [links, hnode]
            rw [hnext] at hrest
            apply hrest.congr
            intro b hb
            simp only [links, hother b hb]
      have halloc' : ∀ b ∈ l, (heap.put a none).Allocated b := by
        intro b hb
        rw [Heap.Allocated, hother b hb]
        exact halloc b (List.mem_cons_of_mem a hb)
      obtain ⟨heap', hrun, hfreed, hoff⟩ := ih hrest hnodup halloc' (Nat.lt_of_succ_lt_succ hrounds)
      cases hpath with
      | cons _ =>
          refine ⟨heap', ?_, ?_, ?_⟩
          · simp only [destroyNodes, destroyDlListNode, deref_of_cell hnode, ok_bind, hrun]
          · refine List.forall_mem_cons.mpr ⟨?_, hfreed⟩
            exact (hoff a ha).trans (cells_put_self none)
          · intro b hb
            obtain ⟨hne, hb'⟩ := not_or.mp (List.mem_cons.not.mp hb)
            exact (hoff b hb').trans (cells_put_of_ne hne none)

end Destroy

/-- Whatever the calls on a list were, destroying it frees each node that was made for it once and
nothing else, except for the nodes that were inserted before there was a current one. -/
theorem destroy_after (alloc : NodeAllocator α) (heap : NodeHeap α) (calls : List (Call α))
    {st : State α} (hrun : after alloc heap calls = .ok st) :
    ∃ (heap' : NodeHeap α) (lost : List ℕ), destroyDlList st = .ok heap' ∧
      lost.Nodup ∧ lost.length = notLinked calls ∧
      (∀ a ∈ lost, NeverLinked alloc heap calls a ∧ heap.cells a = none ∧ heap'.Allocated a) ∧
      ∀ a ∉ lost, heap'.cells a = heap.cells a := by
  obtain ⟨lost, l, howns, hlength, -, hlost⟩ := owns_after hrun
  have hnodup := howns.linked.isList.nodup
  have hrounds := length_le_bound hnodup howns.linked.allocated
  obtain ⟨heap', hdestroy, hfreed, hoff⟩ := destroyNodes_path howns.linked.isList.path hnodup
    howns.linked.allocated (Nat.lt_succ_of_le hrounds)
  have hdisj := List.disjoint_of_nodup_append howns.nodup
  refine ⟨heap', lost, hdestroy, howns.nodup.of_append_left, hlength, ?_, ?_⟩
  · intro a ha
    refine ⟨hlost a ha, howns.new a (List.mem_append_left l ha), ?_⟩
    rw [Heap.Allocated, hoff a (hdisj ha)]
    exact howns.kept a ha
  · intro a ha
    by_cases hl : a ∈ l
    · rw [hfreed a hl]
      exact (howns.new a (List.mem_append_right lost hl)).symm
    · have hother : a ∉ lost ++ l := by simp [ha, hl]
      exact (hoff a hl).trans (howns.others a hother)

/-- The first insertion finds no list, the second one does. -/
theorem destroy_after_insert : ∃ (st : State ℕ) (heap' : NodeHeap ℕ) (lost : List ℕ),
    after Heap.Allocator.bump Heap.empty
        [Call.insert 0, Call.append 1, Call.insert 2, Call.delete] = .ok st ∧
      destroyDlList st = .ok heap' ∧ lost.length = 1 ∧
      (∀ a ∈ lost, NeverLinked Heap.Allocator.bump Heap.empty
        [Call.insert 0, Call.append 1, Call.insert 2, Call.delete] a) ∧
      ∀ a ∉ lost, heap'.cells a = none := by
  obtain ⟨heap', lost, hdestroy, -, hlength, hlost, hother⟩ :=
    destroy_after Heap.Allocator.bump Heap.empty
      [Call.insert 0, Call.append 1, Call.insert 2, Call.delete] rfl
  exact ⟨_, heap', lost, rfl, hdestroy, hlength, fun a ha => (hlost a ha).1, hother⟩

end DlList

end SimpleVm
