import SimpleVm.Lib.Lifecycle
import SimpleVm.VmCommon.CodeGrowth
import SimpleVm.VmCommon.DataStore

/-!
# The two buffers behind their static pointers

Both modules create their buffer where the pointer is `NULL`, and both free
it without setting the pointer back. A buffer that was destroyed is never
replaced.
-/

namespace SimpleVm

open Lifecycle

namespace CodeBuffer

/-- The static pointer `code` with `create_code_buffer` and
`destroy_code_buffer`. Each call meets its own allocator. -/
def component : Component CodeBuffer ((ℕ → UInt8) × Call) Halt where
  new := createCodeBuffer
  release := fun _ => .ok ()
  act := fun op buf => buf.perform op.1 op.2
  dangling := .invalidAccess

theorem component_releases : component.Releases := fun _ _ _ => rfl

end CodeBuffer

namespace DataBuffer

/-- The functions that use the buffer, with what the allocator decides. -/
inductive Op where
  | add (memory : Memory) (call : Call)
  | appendDataBuffer (memory : Memory) (val : Option DataItem)
  | getDataItem (index : Int32)
  | getIntData (index : Int32)
  | getUnsignedData (index : Int32)
  | getFloatData (index : Int32)
  | getStringData (index : Int32)

def performOp (data : DataBuffer) : Op → Except Halt DataBuffer
  | .add memory call => do
      let (_, data) ← perform memory data call
      .ok data
  | .appendDataBuffer memory val => do
      let (_, data) ← appendDataBuffer memory data val
      .ok data
  | .getDataItem index => do
      let _ ← getDataItem data index.toInt
      .ok data
  | .getIntData index => do
      let _ ← getIntData data index.toInt
      .ok data
  | .getUnsignedData index => do
      let _ ← getUnsignedData data index.toInt
      .ok data
  | .getFloatData index => do
      let _ ← getFloatData data index.toInt
      .ok data
  | .getStringData index => do
      let _ ← getStringData data index.toInt
      .ok data

/-- The loop of `destroy_data_buffer`, which frees one item in each round. -/
def destroyItems (data : DataBuffer) : ℕ → ℤ → Except Halt Unit
  | 0, _ => .error .diverges
  | rounds + 1, post => do
      match ← PointerList.iteratePtrList (some data) post with
      | (some _, post) => destroyItems data rounds post
      | (none, _) => .ok ()

/-- The static pointer `data` with `create_data_buffer` and `destroy_data_buffer`. -/
def component : Component DataBuffer Op Halt where
  new := createDataBuffer
  release := fun data => destroyItems data (data.len + 1) 0
  act := fun op data => performOp data op
  dangling := .invalidAccess

/-- Every item of the list is there. -/
def Filled (data : DataBuffer) : Prop := ∃ items : List DataItem, data.Holds (items.map some)

theorem filled_create : Filled createDataBuffer := ⟨[], PointerList.holds_create⟩

theorem Filled.append {data' : DataBuffer} {items : List DataItem} {item : DataItem}
    (h : data'.Holds (items.map some ++ [some item])) : Filled data' := by
  refine ⟨items ++ [item], ?_⟩
  rwa [List.map_append, List.map_singleton]

theorem Filled.performOp {data data' : DataBuffer} {op : Op} (h : Filled data)
    (hrun : performOp data op = .ok data') : Filled data' := by
  -- a getter leaves the buffer as it is
  have hget : ∀ {β : Type} {x : Except Halt β},
      (do let _ ← x; Except.ok data) = .ok data' → Filled data' := by
    intro β x hx
    obtain ⟨val, -, heq⟩ := bind_eq_ok.mp hx
    obtain rfl := Except.ok.inj heq
    exact h
  obtain ⟨items, hheld⟩ := h
  cases op with
  | add memory call =>
      obtain ⟨⟨r, next⟩, hadd, heq⟩ := bind_eq_ok.mp hrun
      obtain rfl : next = data' := Except.ok.inj heq
      exact Filled.append (perform_spec hheld hadd).2.2
  | appendDataBuffer memory val =>
      obtain ⟨⟨r, next⟩, happend, heq⟩ := bind_eq_ok.mp hrun
      obtain rfl : next = data' := Except.ok.inj heq
      exact Filled.append (append_eq_ok hheld happend).2.2
  | getDataItem index => exact hget hrun
  | getIntData index => exact hget hrun
  | getUnsignedData index => exact hget hrun
  | getFloatData index => exact hget hrun
  | getStringData index => exact hget hrun

theorem destroyItems_eq {data : DataBuffer} {items : List DataItem}
    (h : data.Holds (items.map some)) {rounds i : ℕ} (hi : items.length < i + rounds)
    (hle : i ≤ items.length) : destroyItems data rounds i = .ok () := by
  induction rounds generalizing i with
  | zero => omega
  | succ rounds ih =>
      obtain hlt | rfl := Nat.lt_or_eq_of_le hle
      · have hnext := h.iteratePtrList (i := i) (by rwa [List.length_map])
        rw [List.getElem_map] at hnext
        simp only [destroyItems, hnext, ok_bind]
        exact ih (by omega) hlt
      · have hend := h.iteratePtrList_end
        rw [List.length_map] at hend
        simp only [destroyItems, hend, ok_bind]

theorem component_releases : component.Releases := by
  refine Component.Releases.of_invariant (P := Filled) filled_create ?_ ?_
  · intro op data data' h hrun
    exact h.performOp hrun
  · rintro data ⟨items, hheld⟩
    have hlen : data.len = items.length := hheld.len_eq.trans (List.length_map _)
    exact destroyItems_eq (i := 0) hheld (by omega) (Nat.zero_le _)

end DataBuffer

/-- Each buffer serves its calls exactly when none of its creates and
destroys comes after the destroy of a buffer. -/
theorem buffers_lawful_iff
    (codeCalls : List (Lifecycle.Call ((ℕ → UInt8) × CodeBuffer.Call)))
    (dataCalls : List (Lifecycle.Call DataBuffer.Op))
    (hcode : WellUsed codeCalls) (hdata : WellUsed dataCalls) :
    (CodeBuffer.component.Lawful codeCalls ↔ CodeBuffer.component.Spared codeCalls) ∧
      (DataBuffer.component.Lawful dataCalls ↔ DataBuffer.component.Spared dataCalls) :=
  ⟨Component.lawful_iff CodeBuffer.component_releases hcode,
    Component.lawful_iff DataBuffer.component_releases hdata⟩

theorem buffers_lawful_iff_one_life :
    (CodeBuffer.component.Lawful [.create, .use (fun _ => 0, .add (.char 7)), .destroy] ↔
      CodeBuffer.component.Spared [.create, .use (fun _ => 0, .add (.char 7)), .destroy]) ∧
    (DataBuffer.component.Lawful [.create, .use (.getIntData 0), .destroy] ↔
      DataBuffer.component.Spared [.create, .use (.getIntData 0), .destroy]) :=
  buffers_lawful_iff [.create, .use (fun _ => 0, .add (.char 7)), .destroy]
    [.create, .use (.getIntData 0), .destroy] (wellUsed_one_life _) (wellUsed_one_life _)

/-- The create that follows a destroy makes no buffer, in either module. -/
theorem not_lawful_create_again :
    WellUsed ([.create, .destroy, .create] : List (Lifecycle.Call DataBuffer.Op)) ∧
      ¬ CodeBuffer.component.Lawful [.create, .destroy, .create] ∧
      ¬ DataBuffer.component.Lawful [.create, .destroy, .create] :=
  ⟨wellUsed_of_no_use (by simp), CodeBuffer.component_releases.not_lawful,
    DataBuffer.component_releases.not_lawful⟩

end SimpleVm
