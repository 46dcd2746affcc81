import SimpleVm.Lib.Runs
import SimpleVm.VmCommon.DataBuffer

/-!
# Storing data and getting it back

Each `add_*_data` builds an item of its own type and appends it, and the
append keeps only the tag of that item, as an unsigned number. The index that
comes back is right; what is found there is the same for every value of a type.
-/

namespace SimpleVm.DataBuffer

/-- A call of one of the four `add_*_data` functions. -/
inductive Call where
  | addInt (val : Int32)
  | addUnsigned (val : UInt32)
  | addFloat (val : UInt32)
  | addString (str : CString)
  deriving DecidableEq

namespace Call

def type : Call → DataType
  | .addInt _ => .integer
  | .addUnsigned _ => .unsigned
  | .addFloat _ => .float
  | .addString _ => .string

def item (memory : Memory) : Call → Except Halt DataItem
  | .addInt val => .ok (DataItem.createIvalItem (some val))
  | .addUnsigned val => .ok (DataItem.createUvalItem (some val))
  | .addFloat val => .ok (DataItem.createFvalItem (some val))
  | .addString str => DataItem.createSvalItem memory.bytes memory.addr str

/-- What ends up in the buffer. -/
def stored (call : Call) : DataItem := .unsigned call.type.code

end Call

def perform (memory : Memory) (data : DataBuffer) : Call → Except Halt (ℤ × DataBuffer)
  | .addInt val => addIntData memory data val
  | .addUnsigned val => addUnsignedData memory data val
  | .addFloat val => addFloatData memory data val
  | .addString str => addStringData memory data str

def after (memory : Memory) (calls : List Call) : Except Halt DataBuffer :=
  calls.foldlM (fun data call => do
    let (_, data) ← perform memory data call
    .ok data) createDataBuffer

/-- The item at the index has the type of the call, and the getter for that
type returns what the call was given. -/
def Retrieves (data : DataBuffer) (i : ℕ) (call : Call) : Prop :=
  (∃ item, getDataItem data i = .ok (some item) ∧ item.type = call.type) ∧
    match call with
    | .addInt val => getIntData data i = .ok (some val)
    | .addUnsigned val => getUnsignedData data i = .ok (some val)
    | .addFloat val => getFloatData data i = .ok (some val)
    | .addString str => ∃ sval, getStringData data i = .ok (some sval) ∧ sval.str.rawString = str

/-- Every call returns the number of calls before it, and at any time all the
values added so far can be retrieved. -/
def StoresAll (memory : Memory) (calls : List Call) : Prop :=
  ∀ pre, pre <+: calls → ∃ data, after memory pre = .ok data ∧
    (∀ i call, pre[i]? = some call → Retrieves data i call) ∧
    ∀ call, pre ++ [call] <+: calls →
      ∃ data', perform memory data call = .ok ((pre.length : ℤ), data')

theorem perform_eq (memory : Memory) (data : DataBuffer) (call : Call) :
    perform memory data call = (do
      let item ← call.item memory
      appendDataBuffer memory data (some item)) := by
  cases call <;> rfl

theorem item_type {memory : Memory} {call : Call} {item : DataItem}
    (h : call.item memory = .ok item) : item.type = call.type := by
  cases call with
  | addInt val => exact congrArg DataItem.type (Except.ok.inj h).symm
  | addUnsigned val => exact congrArg DataItem.type (Except.ok.inj h).symm
  | addFloat val => exact congrArg DataItem.type (Except.ok.inj h).symm
  | addString str =>
      simp only [Call.item, DataItem.createSvalItem, bind_eq_ok, Except.ok.injEq] at h
      obtain ⟨sval, -, rfl⟩ := h
      rfl

theorem rewrapped_item {memory : Memory} {call : Call} {item : DataItem}
    (h : call.item memory = .ok item) : rewrapped (some item) = call.stored := by
  rw [Call.stored, ← item_type h]
  rfl

theorem after_concat (memory : Memory) (calls : List Call) (call : Call) :
    after memory (calls ++ [call]) = (do
      let data ← after memory calls
      let (_, data) ← perform memory data call
      .ok data) := by
  simp [after, List.foldlM_append]

theorem isRun_after (memory : Memory) :
    IsRun (fun calls data => after memory calls = .ok data)
      fun data call data' => ∃ r, perform memory data call = .ok (r, data') where
  concat := by
    intro calls call data'
    simp only [after_concat, bind_eq_ok, Except.ok.injEq]
    constructor
    · rintro ⟨data, hdata, ⟨r, next⟩, hstep, rfl⟩
      exact ⟨data, hdata, r, hstep⟩
    · rintro ⟨data, hdata, r, hstep⟩
      exact ⟨data, hdata, (r, data'), hstep, rfl⟩

theorem perform_spec {memory : Memory} {data data' : DataBuffer} {elems : List (Option DataItem)}
    {call : Call} {r : ℤ} (h : data.Holds elems)
    (hrun : perform memory data call = .ok (r, data')) :
    elems.length < 2 ^ 30 ∧ r = elems.length ∧ data'.Holds (elems ++ [some call.stored]) := by
  simp only [perform_eq, bind_eq_ok] at hrun
  obtain ⟨item, hitem, hrun⟩ := hrun
  rw [← rewrapped_item hitem]
  exact append_eq_ok h hrun

theorem after_spec {memory : Memory} {calls : List Call} {data : DataBuffer}
    (hrun : after memory calls = .ok data) :
    calls.length ≤ 2 ^ 30 ∧ data.Holds (calls.map fun call => some call.stored) := by
  refine (isRun_after memory).invariant (I := fun calls data =>
    calls.length ≤ 2 ^ 30 ∧ data.Holds (calls.map fun call => some call.stored)) ?_ ?_ hrun
  · rintro data ⟨⟩
    exact ⟨Nat.zero_le _, PointerList.holds_create⟩
  · rintro pre call before next - - ⟨-, hbefore⟩ ⟨r, hstep⟩
    obtain ⟨hroom, -, hheld⟩ := perform_spec hbefore hstep
    rw [List.length_map] at hroom
    refine ⟨?_, ?_⟩
    · rw [List.length_append, List.length_singleton]
      exact hroom
    · rwa [List.map_append, List.map_singleton]

theorem exists_perform {memory : Memory} {data : DataBuffer} {elems : List (Option DataItem)}
    {call : Call} (h : data.Holds elems) (hroom : elems.length < 2 ^ 30)
    (hitem : ∃ item, call.item memory = .ok item) :
    ∃ data', perform memory data call = .ok ((elems.length : ℤ), data') ∧
      data'.Holds (elems ++ [some call.stored]) := by
  obtain ⟨item, hitem⟩ := hitem
  rw [perform_eq, hitem, ok_bind, ← rewrapped_item hitem]
  exact exists_append memory h hroom (some item)

theorem exists_after {memory : Memory} {calls : List Call} (hlen : calls.length ≤ 2 ^ 30)
    (hitem : ∀ call ∈ calls, ∃ item, call.item memory = .ok item) :
    ∃ data, after memory calls = .ok data ∧
      data.Holds (calls.map fun call => some call.stored) := by
  induction calls using List.reverseRecOn with
  | nil => exact ⟨_, rfl, PointerList.holds_create⟩
  | append_singleton calls call ih =>
      rw [List.length_append, List.length_singleton] at hlen
      rw [List.forall_mem_append, List.forall_mem_singleton] at hitem
      obtain ⟨before, hbefore, hheld⟩ := ih (Nat.le_of_succ_le hlen) hitem.1
      obtain ⟨data, hstep, hheld'⟩ :=
        exists_perform hheld (by rw [List.length_map]; exact hlen) hitem.2
      refine ⟨data, ?_, ?_⟩
      · rw [after_concat, hbefore, ok_bind, hstep]
        rfl
      · rwa [List.map_append, List.map_singleton]

theorem retrieves_iff {data : DataBuffer} {elems : List (Option DataItem)} {i : ℕ}
    {call : Call} (h : data.Holds elems) (hi : elems[i]? = some (some call.stored)) :
    Retrieves data i call ↔ call = .addUnsigned 1 := by
  have htype : (∃ item, getDataItem data i = .ok (some item) ∧ item.type = call.type) ↔
      DataType.unsigned = call.type := by
    simp [getDataItem_eq h hi, Call.stored, DataItem.type]
  unfold Retrieves
  rw [htype]
  cases call with
  | addInt val => simp [Call.type]
  | addUnsigned val =>
      simp only [Call.type, true_and, getUnsignedData, getData_eq h hi, ok_bind]
      simp [Call.stored, Call.type, DataItem.word, DataType.code, eq_comm]
  | addFloat val => simp [Call.type]
  | addString str => simp [Call.type]

/-- Values come back exactly when all of them are the unsigned number 1, the
tag of their own type, and there are no more than the largest list can hold. -/
theorem storesAll_iff (memory : Memory) (calls : List Call) :
    StoresAll memory calls ↔
      calls.length ≤ 2 ^ 30 ∧ ∀ call ∈ calls, call = .addUnsigned 1 := by
  constructor
  · intro h
    obtain ⟨data, hrun, hget, -⟩ := h calls List.prefix_rfl
    obtain ⟨hlen, hheld⟩ := after_spec hrun
    refine ⟨hlen, ?_⟩
    intro call hmem
    obtain ⟨i, hi⟩ := List.getElem?_of_mem hmem
    apply (retrieves_iff hheld _).mp (hget i call hi)
    rw [List.getElem?_map, hi]
    rfl
  · rintro ⟨hlen, hone⟩ pre hpre
    have hitem : ∀ call ∈ calls, ∃ item, call.item memory = .ok item := by
      intro call hcall
      rw [hone call hcall]
      exact ⟨_, rfl⟩
    obtain ⟨data, hrun, hheld⟩ := exists_after (hpre.length_le.trans hlen)
      fun call hcall => hitem call (hpre.subset hcall)
    refine ⟨data, hrun, ?_, ?_⟩
    · intro i call hi
      apply (retrieves_iff hheld _).mpr
      · exact hone call (hpre.subset (List.mem_of_getElem? hi))
      · rw [List.getElem?_map, hi]
        rfl
    · intro call hnext
      have hroom := hnext.length_le.trans hlen
      rw [List.length_append, List.length_singleton] at hroom
      obtain ⟨data', hstep, -⟩ := exists_perform hheld (by rw [List.length_map]; exact hroom)
        (hitem call (hnext.subset (List.mem_append_right pre (List.mem_singleton.mpr rfl))))
      rw [List.length_map] at hstep
      exact ⟨data', hstep⟩

/-- The integer 5 becomes the unsigned number 0, the tag of integers. -/
theorem not_storesAll_one_integer : ¬ StoresAll ⟨fun _ => 0, fun _ => none, 0⟩ [.addInt 5] := by
  intro h
  obtain ⟨data, hrun, hget, -⟩ := h [.addInt 5] List.prefix_rfl
  obtain ⟨⟨item, hitem, htype⟩, -⟩ := hget 0 _ rfl
  rw [getDataItem_eq (after_spec hrun).2 rfl] at hitem
  cases hitem
  cases htype

end SimpleVm.DataBuffer
