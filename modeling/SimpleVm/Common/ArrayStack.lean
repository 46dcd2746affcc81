import SimpleVm.Common.ArrayChanges
import SimpleVm.Lib.Runs

/-!
# Arrays as stacks

The items are pushed and popped as on a stack. The pointer to the top is not
scaled by the size of an item, so it is right for items of one byte, and
otherwise as long as there is no item below the top.
-/

namespace SimpleVm

namespace ArrayT

inductive StackCall where
  | push (data : ℕ → UInt8)
  | pop

def pushOrPop (u : Unspecified) (arr : ArrayT) : StackCall → Except ArrayHalt ArrayT
  | .push data => pushArray u arr data
  | .pop => .ok (popArray arr).2

/-- The array after the calls, when it was created before them. -/
def afterStackCalls (u : Unspecified) (size : ℕ) (comp : Option (List UInt8 → List UInt8 → ℤ))
    (calls : List StackCall) : Except ArrayHalt ArrayT := do
  let arr ← createArray size comp
  calls.foldlM (pushOrPop u) arr

def pushOrPopItem (size : ℕ) (stack : List (List UInt8)) : StackCall → List (List UInt8)
  | .push data => stack ++ [itemAt size data]
  | .pop => stack.dropLast

/-- The items pushed and not yet popped, with the one pushed last at the end. -/
def stackAfter (size : ℕ) (calls : List StackCall) : List (List UInt8) :=
  calls.foldl (pushOrPopItem size) []

/-- The pointer is to the bytes of the last item, or `NULL` when there is none. -/
def PointsAtTop (u : Unspecified) (arr : ArrayT) (stack : List (List UInt8)) (ptr : Option ℤ) :
    Prop :=
  match stack.getLast? with
  | none => ptr = none
  | some top => ptr = some ((arr.size : ℤ) * ((stack.length : ℤ) - 1)) ∧
      load u arr (arr.size * ((stack.length : ℤ) - 1)) arr.size = .ok top

structure ActsAsStack (u : Unspecified) (arr : ArrayT) (stack : List (List UInt8)) : Prop where
  peek : PointsAtTop u arr stack (peekArray arr)
  pop : PointsAtTop u (popArray arr).2 stack (popArray arr).1
  popped : Holds stack.dropLast (popArray arr).2

variable {u : Unspecified} {arr arr' : ArrayT} {stack : List (List UInt8)} {size : ℕ}

theorem pointsAtTop_nil (ptr : Option ℤ) : PointsAtTop u arr [] ptr ↔ ptr = none := Iff.rfl

theorem pointsAtTop_append (stack : List (List UInt8)) (top : List UInt8) (ptr : Option ℤ) :
    PointsAtTop u arr (stack ++ [top]) ptr ↔ ptr = some ((arr.size * stack.length : ℕ) : ℤ) ∧
      load u arr ((arr.size * stack.length : ℕ) : ℤ) arr.size = .ok top := by
  have hlen : ((stack ++ [top]).length : ℤ) - 1 = stack.length := by
    rw [List.length_append, List.length_singleton]
    omega
  rw [PointsAtTop, List.getLast?_concat]
  dsimp only
  rw [hlen, ← Int.natCast_mul]

/-! ## One state -/

theorem Holds.peek_nil (h : Holds [] arr) : peekArray arr = none := by
  have hlen := h.length_eq
  rw [List.length_nil] at hlen
  exact if_neg (by omega)

theorem Holds.pop_nil (h : Holds [] arr) : popArray arr = (none, arr) := by
  have hlen := h.length_eq
  rw [List.length_nil] at hlen
  exact if_neg (by omega)

theorem Holds.length_top {top : List UInt8} (h : Holds (stack ++ [top]) arr) :
    0 < arr.length ∧ arr.length - 1 = stack.length := by
  have hlen := h.length_eq
  rw [List.length_append, List.length_singleton] at hlen
  omega

theorem Holds.peek_top {top : List UInt8} (h : Holds (stack ++ [top]) arr) :
    peekArray arr = some (stack.length : ℤ) := by
  obtain ⟨hpos, hlast⟩ := h.length_top
  rw [peekArray, if_pos hpos, hlast]

theorem Holds.pop_top {top : List UInt8} (h : Holds (stack ++ [top]) arr) :
    popArray arr = (some (stack.length : ℤ), { arr with length := arr.length - 1 }) := by
  obtain ⟨hpos, hlast⟩ := h.length_top
  rw [popArray, if_pos hpos, hlast]

theorem Holds.popArray (h : Holds stack arr) : Holds stack.dropLast (popArray arr).2 := by
  rcases List.eq_nil_or_concat' stack with rfl | ⟨rest, top, rfl⟩
  · rw [h.pop_nil]
    exact h
  · rw [h.pop_top, List.dropLast_concat]
    exact h.dropLast

/-- The top is still in the block when it is popped. -/
theorem Holds.load_top {top : List UInt8} (h : Holds (stack ++ [top]) arr) (u : Unspecified)
    (length : ℤ) :
    load u { arr with length := length } ((arr.size * stack.length : ℕ) : ℤ) arr.size =
      .ok top := by
  have hlt : stack.length < (stack ++ [top]).length := by
    rw [List.length_append, List.length_singleton]
    exact Nat.lt_succ_self _
  have hinside : arr.size * stack.length + arr.size ≤ arr.buffer.length := by
    rw [h.length_buffer, ← Nat.mul_succ]
    exact Nat.mul_le_mul_left arr.size (Nat.le_trans hlt h.length_le)
  have hitem : (stack ++ [top])[stack.length] = top := List.getElem_concat_length rfl hlt
  have hload := h.load_item u hlt
  rw [load_inside hinside, hitem] at hload
  exact Eq.trans (load_inside hinside) hload

/-- The position of the top is its offset as well only in these cases. -/
theorem Holds.actsAsStack_iff (h : Holds stack arr) (u : Unspecified) :
    ActsAsStack u arr stack ↔ arr.size = 1 ∨ stack.length ≤ 1 := by
  rcases List.eq_nil_or_concat' stack with rfl | ⟨rest, top, rfl⟩
  · refine iff_of_true ⟨?_, ?_, h.popArray⟩ (.inr (Nat.zero_le 1))
    · rw [pointsAtTop_nil, h.peek_nil]
    · rw [pointsAtTop_nil, h.pop_nil]
  · have hoffset : some (rest.length : ℤ) = some ((arr.size * rest.length : ℕ) : ℤ) ↔
        arr.size = 1 ∨ (rest ++ [top]).length ≤ 1 := by
      rw [Option.some_inj, Int.natCast_inj, List.length_append, List.length_singleton]
      rcases Nat.eq_zero_or_pos rest.length with hzero | hpos
      · exact iff_of_true (by rw [hzero, Nat.mul_zero]) (.inr (by omega))
      · rw [eq_comm, Nat.mul_eq_right (Nat.ne_of_gt hpos)]
        omega
    constructor
    · intro hacts
      have hpeek := (pointsAtTop_append rest top _).mp hacts.peek
      rw [h.peek_top] at hpeek
      exact hoffset.mp hpeek.1
    · intro hwhen
      have hptr := hoffset.mpr hwhen
      refine ⟨?_, ?_, h.popArray⟩
      · rw [pointsAtTop_append, h.peek_top]
        exact ⟨hptr, h.load_top u arr.length⟩
      · rw [pointsAtTop_append, h.pop_top]
        exact ⟨hptr, h.load_top u (arr.length - 1)⟩

/-! ## Every run -/

theorem Holds.pushOrPop (h : Holds stack arr) {call : StackCall}
    (hrun : ArrayT.pushOrPop u arr call = .ok arr') :
    Holds (pushOrPopItem arr.size stack call) arr' ∧ arr'.size = arr.size := by
  cases call with
  | push data =>
      by_cases hgrows : Grows arr 1
      · obtain ⟨arr₁, happend, hheld, hsize⟩ := h.appendArrayData u hgrows data
        rw [ArrayT.pushOrPop, pushArray, happend] at hrun
        cases hrun
        exact ⟨hheld, hsize⟩
      · obtain ⟨e, hresize⟩ : ∃ e, ArrayT.resize u arr 1 = .error e :=
          h.resize_error u (n := 1) hgrows
        rw [ArrayT.pushOrPop, pushArray, ArrayT.appendArrayData, hresize] at hrun
        cases hrun
  | pop =>
      cases hrun
      refine ⟨h.popArray, ?_⟩
      rw [ArrayT.popArray]
      split <;> rfl

theorem afterStackCalls_append (comp : Option (List UInt8 → List UInt8 → ℤ))
    (calls : List StackCall) (call : StackCall) :
    afterStackCalls u size comp (calls ++ [call]) =
      (afterStackCalls u size comp calls >>= fun arr => pushOrPop u arr call) := by
  unfold afterStackCalls
  cases createArray size comp with
  | error e => rfl
  | ok arr =>
      rw [ok_bind, ok_bind, List.foldlM_append]
      congr 1
      funext arr₁
      rw [List.foldlM_cons]
      cases pushOrPop u arr₁ call <;> rfl

theorem isRun_afterStackCalls (u : Unspecified) (size : ℕ)
    (comp : Option (List UInt8 → List UInt8 → ℤ)) :
    IsRun (fun calls arr => afterStackCalls u size comp calls = .ok arr)
      fun arr call arr' => pushOrPop u arr call = .ok arr' where
  concat := by
    intro calls call arr'
    rw [afterStackCalls_append]
    exact bind_eq_ok

theorem stackAfter_append (calls : List StackCall) (call : StackCall) :
    stackAfter size (calls ++ [call]) = pushOrPopItem size (stackAfter size calls) call := by
  rw [stackAfter, List.foldl_append]
  rfl

theorem holds_afterStackCalls {comp : Option (List UInt8 → List UInt8 → ℤ)}
    {calls : List StackCall} (hrun : afterStackCalls u size comp calls = .ok arr) :
    Holds (stackAfter size calls) arr ∧ arr.size = size := by
  refine (isRun_afterStackCalls u size comp).invariant
    (I := fun calls arr => Holds (stackAfter size calls) arr ∧ arr.size = size) ?_ ?_ hrun
  · intro arr hrun
    obtain ⟨arr₀, hcreate, hrun⟩ := bind_eq_ok.mp hrun
    cases hrun
    rcases createArray_cases size comp with ⟨arr₁, hcreate', hheld, hsize⟩ | ⟨-, hover⟩
    · rw [hcreate] at hcreate'
      cases hcreate'
      exact ⟨hheld, hsize⟩
    · rw [hcreate] at hover
      cases hover
  · rintro calls call arr₀ arr₁ - - ⟨h₀, hsize₀⟩ hstep
    obtain ⟨hheld, hsize⟩ := h₀.pushOrPop hstep
    rw [hsize₀] at hheld
    rw [stackAfter_append]
    exact ⟨hheld, hsize.trans hsize₀⟩

/-- What holds in each state of a run, with the items on the stack there. -/
def InEachState (u : Unspecified) (size : ℕ) (comp : Option (List UInt8 → List UInt8 → ℤ))
    (calls : List StackCall) (P : ArrayT → List (List UInt8) → Prop) : Prop :=
  ∀ earlier, earlier <+: calls → ∀ arr, afterStackCalls u size comp earlier = .ok arr →
    P arr (stackAfter size earlier)

/-- An array is a stack as long as its items have one byte or there is one of them at most. -/
theorem array_stack_iff (u : Unspecified) (size : ℕ)
    (comp : Option (List UInt8 → List UInt8 → ℤ)) (calls : List StackCall) :
    InEachState u size comp calls (ActsAsStack u) ↔
      InEachState u size comp calls fun _ stack => size = 1 ∨ stack.length ≤ 1 := by
  refine forall_congr' fun earlier => imp_congr_right fun _ => forall_congr' fun arr =>
    imp_congr_right fun hrun => ?_
  obtain ⟨hheld, hsize⟩ := holds_afterStackCalls hrun
  rw [hheld.actsAsStack_iff u, hsize]

/-- The pointer to the second item of two bytes is into the first one. -/
theorem not_actsAsStack_pair :
    ¬ InEachState ⟨fun _ _ => 0, none⟩ 2 none [.push fun _ => 1, .push fun _ => 2]
      (ActsAsStack ⟨fun _ _ => 0, none⟩) := by
  intro hall
  have hok : (afterStackCalls ⟨fun _ _ => 0, none⟩ 2 none
      [.push fun _ => 1, .push fun _ => 2]).isOk = true := rfl
  obtain ⟨arr, hrun⟩ := exists_of_isOk hok
  obtain ⟨hpeek, -⟩ := (hall _ List.prefix_rfl arr hrun).peek
  cases hrun
  exact absurd hpeek (by decide)

end ArrayT

end SimpleVm
