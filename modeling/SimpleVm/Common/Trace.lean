import Mathlib.Data.List.Induction
import SimpleVm.Common.Errors

/-!
# Trace verbosity

The verbosities are kept on a linked stack. A node that is pushed onto another
one is linked to itself, so the values below it are lost, and popping it leaves
the stack on a node that has been freed.
-/

namespace SimpleVm

structure VerbosityNode where
  verbosity : Int32
  next : Option ℕ
  deriving DecidableEq

namespace Trace

/-- The static `stack`, and the heap its nodes are on. -/
structure State where
  heap : Heap VerbosityNode
  stack : Option ℕ

def pushTraceVerbosity (alloc : Heap.Allocator VerbosityNode) (st : State) (num : Int32) : State :=
  let ptr := alloc.pick st.heap
  let next := match st.stack with
    | none => none
    | some _ => some ptr
  ⟨st.heap.put ptr (some ⟨num, next⟩), some ptr⟩

def popTraceVerbosity (st : State) : Except Halt State :=
  match st.stack with
  | none => .ok st
  | some ptr => do
      let node ← deref st.heap (some ptr)
      .ok ⟨st.heap.put ptr none, node.next⟩

def peekTraceVerbosity (st : State) : Except Halt Int32 :=
  match st.stack with
  | none => .ok 0
  | some ptr => do
      let node ← deref st.heap (some ptr)
      .ok node.verbosity

inductive Call where
  | push (num : Int32)
  | pop
  deriving DecidableEq

def perform (alloc : Heap.Allocator VerbosityNode) (st : State) : Call → Except Halt State
  | .push num => .ok (pushTraceVerbosity alloc st num)
  | .pop => popTraceVerbosity st

/-- The calls one after the other; there is nothing on the stack at first. -/
def after (alloc : Heap.Allocator VerbosityNode) (heap : Heap VerbosityNode) (calls : List Call) :
    Except Halt State :=
  calls.foldlM (perform alloc) ⟨heap, none⟩

/-! ## As a stack -/

def performStack : List Int32 → Call → List Int32
  | values, .push num => num :: values
  | values, .pop => values.tail

/-- The values pushed and not yet popped, the last one first. -/
def stackAfter (calls : List Call) : List Int32 := calls.foldl performStack []

/-- After every call the value on the top is the one that was pushed last. -/
def PeeksRight (alloc : Heap.Allocator VerbosityNode) (heap : Heap VerbosityNode)
    (calls : List Call) : Prop :=
  ∀ pre, pre <+: calls → ∃ st, after alloc heap pre = .ok st ∧
    peekTraceVerbosity st = .ok ((stackAfter pre).headD 0)

/-- Nothing is popped from above another value. -/
def PopsLastOnly (calls : List Call) : Prop :=
  ∀ pre, pre ++ [.pop] <+: calls → (stackAfter pre).length ≤ 1

theorem PopsLastOnly.of_prefix {pre calls : List Call} (h : PopsLastOnly calls)
    (hpre : pre <+: calls) : PopsLastOnly pre :=
  fun p hp => h p (hp.trans hpre)

theorem stackAfter_concat (calls : List Call) (call : Call) :
    stackAfter (calls ++ [call]) = performStack (stackAfter calls) call := by
  simp only [stackAfter, List.foldl_append, List.foldl_cons, List.foldl_nil]

/-! ## What the links are -/

/-- The value on the top is right, but the node leads back to itself unless it is the last. -/
def OnTop : List Int32 → State → Prop
  | [], st => st.stack = none
  | num :: below, st => ∃ ptr, st.stack = some ptr ∧
      st.heap.cells ptr = some ⟨num, if below = [] then none else some ptr⟩

variable {alloc : Heap.Allocator VerbosityNode} {heap : Heap VerbosityNode} {values : List Int32}
  {st : State} {calls : List Call}

theorem OnTop.peek (h : OnTop values st) : peekTraceVerbosity st = .ok (values.headD 0) := by
  cases values with
  | nil =>
      have hstack : st.stack = none := h
      simp only [peekTraceVerbosity, hstack, List.headD_nil]
  | cons num below =>
      obtain ⟨ptr, hstack, hcell⟩ := h
      simp only [peekTraceVerbosity, hstack, deref_of_cell hcell, ok_bind, List.headD_cons]

theorem OnTop.push (h : OnTop values st) (alloc : Heap.Allocator VerbosityNode) (num : Int32) :
    OnTop (num :: values) (pushTraceVerbosity alloc st num) := by
  refine ⟨alloc.pick st.heap, rfl, ?_⟩
  cases values with
  | nil =>
      have hstack : st.stack = none := h
      simp only [pushTraceVerbosity, hstack, Heap.cells_put_self, if_true]
  | cons top below =>
      obtain ⟨ptr, hstack, -⟩ := h
      simp only [pushTraceVerbosity, hstack, Heap.cells_put_self, List.cons_ne_nil, if_false]

theorem OnTop.pop (h : OnTop values st) (hlast : values.length ≤ 1) :
    ∃ st', popTraceVerbosity st = .ok st' ∧ OnTop values.tail st' := by
  cases values with
  | nil =>
      have hstack : st.stack = none := h
      exact ⟨st, by simp only [popTraceVerbosity, hstack], h⟩
  | cons num below =>
      obtain ⟨ptr, hstack, hcell⟩ := h
      obtain rfl : below = [] := List.length_eq_zero_iff.mp (by simpa using hlast)
      refine ⟨⟨st.heap.put ptr none, none⟩, ?_, rfl⟩
      simp only [popTraceVerbosity, hstack, deref_of_cell hcell, ok_bind, if_true]

/-- With a value below it the popped node stays on the stack, but it has been freed. -/
theorem OnTop.pop_dangling (h : OnTop values st) (hbelow : 1 < values.length) :
    ∃ st', popTraceVerbosity st = .ok st' ∧ peekTraceVerbosity st' = .error .invalidAccess := by
  cases values with
  | nil => cases hbelow
  | cons num below =>
      obtain ⟨ptr, hstack, hcell⟩ := h
      have hne : below ≠ [] := by
        rintro rfl
        exact absurd hbelow (Nat.lt_irrefl 1)
      refine ⟨⟨st.heap.put ptr none, some ptr⟩, ?_, ?_⟩
      · simp only [popTraceVerbosity, hstack, deref_of_cell hcell, ok_bind, hne, if_false]
      · simp only [peekTraceVerbosity, deref, Heap.cells_put_self, error_bind]

theorem after_concat (hrun : after alloc heap calls = .ok st) (call : Call) :
    after alloc heap (calls ++ [call]) = perform alloc st call := by
  have happend : after alloc heap (calls ++ [call]) =
      after alloc heap calls >>= fun st => [call].foldlM (perform alloc) st := List.foldlM_append
  rw [happend, hrun, ok_bind]
  exact bind_pure _

/-! ## Whole runs -/

theorem PopsLastOnly.onTop_after (h : PopsLastOnly calls) (alloc : Heap.Allocator VerbosityNode)
    (heap : Heap VerbosityNode) :
    ∃ st, after alloc heap calls = .ok st ∧ OnTop (stackAfter calls) st := by
  induction calls using List.reverseRecOn with
  | nil => exact ⟨_, rfl, rfl⟩
  | append_singleton calls call ih =>
      obtain ⟨st, hrun, htop⟩ := ih (h.of_prefix (List.prefix_append calls [call]))
      rw [after_concat hrun, stackAfter_concat]
      cases call with
      | push num => exact ⟨_, rfl, htop.push alloc num⟩
      | pop => exact htop.pop (h calls List.prefix_rfl)

theorem PeeksRight.popsLastOnly (h : PeeksRight alloc heap calls) : PopsLastOnly calls := by
  induction calls using List.reverseRecOn with
  | nil =>
      intro pre hpre
      exact absurd (List.prefix_nil.mp hpre) (List.concat_ne_nil _ _)
  | append_singleton calls call ih =>
      have hbefore : PopsLastOnly calls :=
        ih fun pre hpre => h pre (hpre.trans (List.prefix_append calls [call]))
      intro pre hpre
      rcases List.prefix_concat_iff.mp hpre with hlast | hearlier
      · obtain ⟨rfl, rfl⟩ := List.append_singleton_inj.mp hlast
        obtain ⟨st, hrun, htop⟩ := hbefore.onTop_after alloc heap
        by_contra hbelow
        obtain ⟨st', hpop, hpeek⟩ := htop.pop_dangling (Nat.lt_of_not_le hbelow)
        obtain ⟨st₂, hrun₂, hpeek₂⟩ := h _ List.prefix_rfl
        rw [after_concat hrun] at hrun₂
        obtain rfl := Except.ok.inj (hpop.symm.trans hrun₂)
        rw [hpeek] at hpeek₂
        cases hpeek₂
      · exact hbefore pre hearlier

/-- The verbosity is that of a stack through a run exactly when no value is popped
from above another. -/
theorem peeks_right_iff (alloc : Heap.Allocator VerbosityNode) (heap : Heap VerbosityNode)
    (calls : List Call) : PeeksRight alloc heap calls ↔ PopsLastOnly calls := by
  constructor
  · exact PeeksRight.popsLastOnly
  · intro h pre hpre
    obtain ⟨st, hrun, htop⟩ := (h.of_prefix hpre).onTop_after alloc heap
    exact ⟨st, hrun, htop.peek⟩

/-- Two values are pushed and one of them is popped. -/
theorem not_peeks_right_two :
    ¬ ∀ calls : List Call, PeeksRight Heap.Allocator.bump Heap.empty calls := by
  intro hall
  have hpops := (hall [.push 1, .push 2, .pop]).popsLastOnly
  exact absurd (hpops [.push 1, .push 2] List.prefix_rfl) (by decide)

end Trace

end SimpleVm
