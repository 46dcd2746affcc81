import SimpleVm.Common.ArrayAccess
import SimpleVm.Common.ArrayReturns
import SimpleVm.Lib.Runs

/-!
# Bounds of the arrays in a run

The calls that take an index are checked: such a call is safe when it stops at
an index that is too large or for want of a block, or returns, hands out no
pointer but to an item, and leaves lengths that the blocks have room for. With a read past a block as
an error, the checked calls of a run are safe just when each meets, where it is
made, the condition that its function has.
-/

namespace SimpleVm

namespace ArrayT

/-- The calls of the functions that take an index. -/
def Call.checked : Call → Bool
  | .insertArray _ _ _ | .delete _ _ | .insert _ _ _ | .index _ _ | .swap _ _ _ => true
  | _ => false

/-- The array that is changed or read. -/
def Call.array : Call → ℕ
  | .create _ _ => 0
  | .insertArray dest _ _ | .appendArray dest _ => dest
  | .clear n | .sort n | .pop n | .peek n => n
  | .find n _ | .append n _ | .delete n _ | .iterate n _ | .index n _ | .push n _ => n
  | .insert n _ _ | .swap n _ _ => n

/-- What a call on the array `n` may end with. -/
def Safe (n : ℕ) : Except ArrayHalt (Answer × List ArrayT) → Prop
  | .error e => e = .indexError ∨ e = .fatal
  | .ok (answer, pool) =>
      (∀ arr ∈ pool, 0 ≤ arr.length ∧ arr.length ≤ arr.capacity) ∧
        ∀ pos, answer = .item (some pos) → ∃ arr, pool[n]? = some arr ∧ 0 ≤ pos ∧ pos < arr.length

/-- The condition on a call that is checked. -/
def Meets (pool : List ArrayT) : Call → Prop
  | .insertArray dest src index =>
      ∃ arr s, pool[dest]? = some arr ∧ pool[src]? = some s ∧ InsertArrayMeets arr s index.toInt
  | .insert n _ index => ∃ arr, pool[n]? = some arr ∧ InsertMeets arr index.toInt
  | .delete n index => ∃ arr, pool[n]? = some arr ∧ DeleteMeets arr index.toInt
  | .index n index => ∃ arr, pool[n]? = some arr ∧ IndexMeets arr index.toInt
  | .swap n idx1 idx2 => ∃ arr, pool[n]? = some arr ∧ SwapMeets arr idx1.toInt idx2.toInt
  | _ => True

/-- The checked calls of a run have the property where they are made. -/
def Throughout (u : Unspecified) (calls : List Call) (P : List ArrayT → Call → Prop) : Prop :=
  ∀ earlier call, earlier ++ [call] <+: calls → call.checked = true →
    ∀ pool, after u earlier = .ok pool → P pool call

variable {u : Unspecified} {arr : ArrayT} {pool pool' : List ArrayT} {n : ℕ}

/-! ## One call -/

def SanePool (pool : List ArrayT) : Prop := ∀ arr ∈ pool, Sane arr

theorem SanePool.get (h : SanePool pool) (harr : pool[n]? = some arr) : Sane arr :=
  h arr (List.mem_of_getElem? harr)

theorem SanePool.set (h : SanePool pool) (harr : Sane arr) : SanePool (pool.set n arr) := by
  intro arr' hmem
  rcases List.mem_or_eq_of_mem_set hmem with hold | rfl
  · exact h arr' hold
  · exact harr

theorem arrayAt_eq (harr : pool[n]? = some arr) : arrayAt pool n = .ok arr := by
  simp only [arrayAt, harr]

theorem arrayAt_missing (hnone : pool[n]? = none) : arrayAt pool n = .error .invalidAccess := by
  simp only [arrayAt, hnone]

theorem arrayAt_ok (h : arrayAt pool n = .ok arr) : pool[n]? = some arr := by
  unfold arrayAt at h
  split at h
  · rename_i arr' harr
    cases h
    exact harr
  · cases h

theorem change_eq (harr : pool[n]? = some arr) (f : ArrayT → Except ArrayHalt ArrayT) :
    change pool n f = (f arr >>= fun arr' => .ok (.done, pool.set n arr')) := by
  rw [change, arrayAt_eq harr, ok_bind]

theorem change_missing (hnone : pool[n]? = none) (f : ArrayT → Except ArrayHalt ArrayT) :
    change pool n f = .error .invalidAccess := by
  rw [change, arrayAt_missing hnone, error_bind]

theorem not_safe_invalidAccess (n : ℕ) : ¬ Safe n (.error .invalidAccess) := by
  rintro (⟨⟨⟩⟩ | ⟨⟨⟩⟩)

/-- The arrays that a call does not change have the bounds already. -/
theorem SanePool.safe_change_iff (h : SanePool pool) (harr : pool[n]? = some arr)
    (f : ArrayT → Except ArrayHalt ArrayT) : Safe n (change pool n f) ↔ EndsBounded (f arr) := by
  have hlt : n < pool.length := (List.getElem?_eq_some_iff.mp harr).1
  rw [change_eq harr]
  cases hrun : f arr with
  | error e =>
      constructor
      · intro hsafe
        exact .inr (hsafe.imp (congrArg Except.error) (congrArg Except.error))
      · rintro (⟨arr', hok, -⟩ | hstops)
        · cases hok
        · exact hstops.imp Except.error.inj Except.error.inj
  | ok arr' =>
      rw [endsBounded_ok_iff]
      constructor
      · rintro ⟨hbounds, -⟩
        exact hbounds arr' (List.mem_set hlt arr')
      · intro hbounds
        refine ⟨?_, nofun⟩
        intro other hmem
        rcases List.mem_or_eq_of_mem_set hmem with hold | rfl
        · exact ⟨(h other hold).length_nonneg, (h other hold).length_le⟩
        · exact hbounds

theorem endsBounded_iff {result : Except ArrayHalt ArrayT}
    (hsane : ∀ arr, result = .ok arr → Sane arr) : EndsBounded result ↔ Ends result := by
  refine ⟨EndsBounded.ends, ?_⟩
  rintro (⟨arr, hok⟩ | hstops)
  · have h := hsane arr hok
    exact .inl ⟨arr, hok, h.length_nonneg, h.length_le⟩
  · exact .inr hstops

/-- One of the functions that only change an array, and the condition it has. -/
theorem SanePool.change_safe_iff (h : SanePool pool) {f : ArrayT → Except ArrayHalt ArrayT}
    {P : ArrayT → Prop} (hf : ∀ arr, Sane arr → (EndsBounded (f arr) ↔ P arr)) :
    Safe n (change pool n f) ↔ ∃ arr, pool[n]? = some arr ∧ P arr := by
  cases harr : pool[n]? with
  | none =>
      rw [change_missing harr]
      exact iff_of_false (not_safe_invalidAccess n) nofun
  | some arr =>
      rw [h.safe_change_iff harr, hf arr (h.get harr)]
      constructor
      · intro hP
        exact ⟨arr, rfl, hP⟩
      · rintro ⟨arr', harr', hP⟩
        cases harr'
        exact hP

theorem SanePool.source (h : SanePool pool) {dest src : ℕ} {s : ArrayT}
    (harr : pool[dest]? = some arr) (hs : pool[src]? = some s) :
    ∃ f, ArrayT.source pool dest src = .ok f ∧ Source arr f s := by
  unfold ArrayT.source
  by_cases hsame : src = dest
  · subst hsame
    rw [harr] at hs
    cases hs
    exact ⟨id, if_pos rfl, source_self arr⟩
  · refine ⟨fun _ => s, ?_, source_other arr (h.get hs)⟩
    rw [if_neg hsame, arrayAt_eq hs, ok_bind]

theorem insertArray_missing {dest src : ℕ}
    (hnone : pool[dest]? = none ∨ pool[src]? = none) (index : Int32) :
    perform u pool (.insertArray dest src index) = .error .invalidAccess := by
  rw [perform, ArrayT.source]
  by_cases hsame : src = dest
  · subst hsame
    rw [if_pos rfl, ok_bind, change_missing (or_self_iff.mp hnone)]
  · rw [if_neg hsame]
    cases hs : pool[src]? with
    | none => simp only [arrayAt_missing hs, error_bind]
    | some s =>
        have hdest : pool[dest]? = none := by
          rcases hnone with hdest | hsrc
          · exact hdest
          · rw [hs] at hsrc
            cases hsrc
        simp only [arrayAt_eq hs, change_missing hdest, ok_bind]

theorem SanePool.insertArray_safe_iff (h : SanePool pool) (hstrict : u.past = none) {dest src : ℕ}
    {index : Int32} :
    Safe dest (perform u pool (.insertArray dest src index)) ↔
      Meets pool (.insertArray dest src index) := by
  by_cases hnone : pool[dest]? = none ∨ pool[src]? = none
  · rw [insertArray_missing hnone]
    refine iff_of_false (not_safe_invalidAccess dest) ?_
    rintro ⟨arr, s, harr, hs, -⟩
    rw [harr, hs] at hnone
    rcases hnone with hdest | hsrc
    · cases hdest
    · cases hsrc
  · obtain ⟨hdest, hsrc⟩ := not_or.mp hnone
    obtain ⟨arr, harr⟩ := Option.ne_none_iff_exists'.mp hdest
    obtain ⟨s, hs⟩ := Option.ne_none_iff_exists'.mp hsrc
    obtain ⟨f, hsource, hfrom⟩ := h.source harr hs
    have hsane := h.get harr
    have hkept : EndsBounded (insertArray u arr f index.toInt) ↔
        Ends (insertArray u arr f index.toInt) :=
      endsBounded_iff fun arr' => hsane.insertArray_ok hfrom
    rw [perform, hsource, ok_bind, h.safe_change_iff harr, hkept,
      hsane.insertArray_iff hstrict hfrom (h.get hs).length_nonneg index.le_toInt]
    constructor
    · intro hmeets
      exact ⟨arr, s, harr, hs, hmeets⟩
    · rintro ⟨arr', s', harr', hs', hmeets⟩
      rw [harr] at harr'
      rw [hs] at hs'
      cases harr'
      cases hs'
      exact hmeets

/-- The arrays are as they were, and the answer is what `index_array_data` gave. -/
theorem SanePool.safe_item_iff (h : SanePool pool) (harr : pool[n]? = some arr)
    (result : Except ArrayHalt (Option ℤ)) :
    Safe n (result >>= fun pos => .ok (.item pos, pool)) ↔ HandsOutItem arr result := by
  cases result with
  | error e =>
      constructor
      · intro hsafe
        exact .inr (hsafe.imp (congrArg Except.error) (congrArg Except.error))
      · rintro (⟨pos, hok, -⟩ | hstops)
        · cases hok
        · exact hstops.imp Except.error.inj Except.error.inj
  | ok pos =>
      constructor
      · rintro ⟨-, hitem⟩
        refine .inl ⟨pos, rfl, ?_⟩
        intro i hi
        obtain ⟨arr', harr', hbounds⟩ := hitem i (congrArg Answer.item hi)
        rw [harr] at harr'
        cases harr'
        exact hbounds
      · rintro (⟨pos', hok, hitem⟩ | herror | hfatal)
        · cases hok
          refine ⟨?_, ?_⟩
          · intro other hmem
            exact ⟨(h other hmem).length_nonneg, (h other hmem).length_le⟩
          · rintro i ⟨⟩
            exact ⟨arr, harr, hitem i rfl⟩
        · cases herror
        · cases hfatal

theorem SanePool.index_safe_iff (h : SanePool pool) {index : Int32} :
    Safe n (perform u pool (.index n index)) ↔ Meets pool (.index n index) := by
  have hmeets : Meets pool (.index n index) ↔
      ∃ arr, pool[n]? = some arr ∧ IndexMeets arr index.toInt := Iff.rfl
  rw [hmeets, perform]
  cases harr : pool[n]? with
  | none =>
      rw [arrayAt_missing harr]
      exact iff_of_false (not_safe_invalidAccess n) nofun
  | some arr =>
      rw [arrayAt_eq harr, ok_bind, h.safe_item_iff harr,
        (h.get harr).indexArrayData_iff index.le_toInt]
      constructor
      · intro hin
        exact ⟨arr, rfl, hin⟩
      · rintro ⟨arr', harr', hin⟩
        cases harr'
        exact hin

theorem SanePool.safe_iff (h : SanePool pool) (hstrict : u.past = none) {call : Call}
    (hcall : call.checked = true) : Safe call.array (perform u pool call) ↔ Meets pool call := by
  cases call with
  | insertArray dest src index => exact h.insertArray_safe_iff hstrict
  | insert n data index =>
      apply h.change_safe_iff
      intro arr harr
      rw [endsBounded_iff fun arr' => keeps_insertArrayData u data index.toInt arr arr' harr]
      exact harr.insertArrayData_iff hstrict index.le_toInt data
  | delete n index =>
      apply h.change_safe_iff
      intro arr harr
      exact harr.deleteArrayData_iff hstrict index.le_toInt
  | index n index => exact h.index_safe_iff
  | swap n idx1 idx2 =>
      apply h.change_safe_iff
      intro arr harr
      rw [endsBounded_iff fun arr' => keeps_swapArrayData u idx1.toInt idx2.toInt arr arr' harr]
      exact harr.swapArrayData_iff hstrict idx1.le_toInt idx2.le_toInt
  | create size comp => cases hcall
  | appendArray dest src => cases hcall
  | clear n => cases hcall
  | sort n => cases hcall
  | find n key => cases hcall
  | append n data => cases hcall
  | iterate n post => cases hcall
  | push n data => cases hcall
  | pop n => cases hcall
  | peek n => cases hcall

/-! ## Every run -/

theorem change_ok {f : ArrayT → Except ArrayHalt ArrayT} {answer : Answer}
    (hrun : change pool n f = .ok (answer, pool')) :
    ∃ arr arr', pool[n]? = some arr ∧ f arr = .ok arr' ∧ pool' = pool.set n arr' := by
  unfold change at hrun
  obtain ⟨arr, harr, hrun⟩ := bind_eq_ok.mp hrun
  obtain ⟨arr', hf, hrun⟩ := bind_eq_ok.mp hrun
  cases hrun
  exact ⟨arr, arr', arrayAt_ok harr, hf, rfl⟩

theorem SanePool.change (h : SanePool pool) {f : ArrayT → Except ArrayHalt ArrayT} (hf : Keeps f)
    {answer : Answer} (hrun : ArrayT.change pool n f = .ok (answer, pool')) : SanePool pool' := by
  obtain ⟨arr, arr', harr, hok, rfl⟩ := change_ok hrun
  exact h.set (hf arr arr' (h.get harr) hok)

theorem SanePool.exists_source (h : SanePool pool) {dest src : ℕ} {f : ArrayT → ArrayT}
    (hsource : ArrayT.source pool dest src = .ok f) (arr : ArrayT) : ∃ s, Source arr f s := by
  unfold ArrayT.source at hsource
  split at hsource
  · cases hsource
    exact ⟨arr, source_self arr⟩
  · obtain ⟨s, hs, hsource⟩ := bind_eq_ok.mp hsource
    cases hsource
    exact ⟨s, source_other arr (h.get (arrayAt_ok hs))⟩

/-- Only after a deletion it has to be known that the call was safe. -/
theorem SanePool.perform (h : SanePool pool) {call : Call} {answer : Answer}
    (hrun : ArrayT.perform u pool call = .ok (answer, pool'))
    (hsafe : call.checked = true → Safe call.array (ArrayT.perform u pool call)) :
    SanePool pool' := by
  cases call with
  | create size comp =>
      obtain ⟨arr, hcreate, hrun⟩ := bind_eq_ok.mp hrun
      cases hrun
      rcases createArray_cases size comp with ⟨arr', hcreate', hheld, -⟩ | ⟨-, hover⟩
      · rw [hcreate] at hcreate'
        cases hcreate'
        intro other hmem
        rcases List.mem_append.mp hmem with hold | hnew
        · exact h other hold
        · rw [List.mem_singleton.mp hnew]
          exact hheld.sane
      · rw [hcreate] at hover
        cases hover
  | insertArray dest src index =>
      obtain ⟨f, hsource, hrun⟩ := bind_eq_ok.mp hrun
      obtain ⟨arr, arr', harr, hok, rfl⟩ := change_ok hrun
      obtain ⟨s, hsrc⟩ := h.exists_source hsource arr
      exact h.set ((h.get harr).insertArray_ok hsrc hok)
  | appendArray dest src =>
      obtain ⟨f, hsource, hrun⟩ := bind_eq_ok.mp hrun
      obtain ⟨arr, arr', harr, hok, rfl⟩ := change_ok hrun
      obtain ⟨s, hsrc⟩ := h.exists_source hsource arr
      exact h.set ((h.get harr).appendArray_ok hsrc hok)
  | clear n => exact h.change (keeps_clearArray u) hrun
  | sort n => exact h.change (keeps_sortArray u) hrun
  | find n key =>
      obtain ⟨arr, harr, hrun⟩ := bind_eq_ok.mp hrun
      obtain ⟨⟨pos, arr'⟩, hfind, hrun⟩ := bind_eq_ok.mp hrun
      cases hrun
      exact h.set ((h.get (arrayAt_ok harr)).findArray_ok hfind)
  | append n data => exact h.change (keeps_appendArrayData u data) hrun
  | push n data => exact h.change (keeps_appendArrayData u data) hrun
  | delete n index =>
      have hbounds := hsafe rfl
      rw [hrun] at hbounds
      obtain ⟨arr, arr', harr, hok, rfl⟩ := change_ok hrun
      have hlt : n < pool.length := (List.getElem?_eq_some_iff.mp harr).1
      have hpos := (hbounds.1 arr' (List.mem_set hlt arr')).1
      exact h.set ((h.get harr).deleteArrayData_ok hok hpos)
  | insert n data index => exact h.change (keeps_insertArrayData u data index.toInt) hrun
  | iterate n post =>
      obtain ⟨arr, -, hrun⟩ := bind_eq_ok.mp hrun
      obtain ⟨⟨pos, mark⟩, -, hrun⟩ := bind_eq_ok.mp hrun
      cases hrun
      exact h
  | index n index =>
      obtain ⟨arr, -, hrun⟩ := bind_eq_ok.mp hrun
      obtain ⟨pos, -, hrun⟩ := bind_eq_ok.mp hrun
      cases hrun
      exact h
  | swap n idx1 idx2 => exact h.change (keeps_swapArrayData u idx1.toInt idx2.toInt) hrun
  | pop n =>
      obtain ⟨arr, harr, hrun⟩ := bind_eq_ok.mp hrun
      cases hrun
      exact h.set (h.get (arrayAt_ok harr)).popArray
  | peek n =>
      obtain ⟨arr, -, hrun⟩ := bind_eq_ok.mp hrun
      cases hrun
      exact h

theorem isRun_after (u : Unspecified) :
    IsRun (fun calls pool => after u calls = .ok pool)
      fun pool call pool' => ∃ answer, perform u pool call = .ok (answer, pool') where
  concat := by
    intro calls call pool'
    rw [after_append]
    constructor
    · intro hrun
      obtain ⟨pool, hpool, hstep⟩ := bind_eq_ok.mp hrun
      obtain ⟨⟨answer, pool₁⟩, hcall, hstep⟩ := bind_eq_ok.mp hstep
      cases hstep
      exact ⟨pool, hpool, answer, hcall⟩
    · rintro ⟨pool, hpool, answer, hcall⟩
      rw [hpool, ok_bind, step, hcall]
      rfl

/-- What makes the checked calls safe keeps the lengths of all arrays in bounds. -/
theorem Throughout.sane {calls : List Call} {P : List ArrayT → Call → Prop}
    (hall : Throughout u calls P)
    (hP : ∀ pool call, SanePool pool → call.checked = true → P pool call →
      Safe call.array (perform u pool call))
    {earlier : List Call} (hearlier : earlier <+: calls) (hrun : after u earlier = .ok pool) :
    SanePool pool := by
  refine (isRun_after u).invariant (I := fun _ pool => SanePool pool) ?_ ?_ hrun
  · rintro pool ⟨⟩
    exact nofun
  · rintro pre call pool₀ pool₁ hpre hrun₀ h₀ ⟨answer, hcall⟩
    apply h₀.perform hcall
    intro hchecked
    exact hP pool₀ call h₀ hchecked (hall pre call (hpre.trans hearlier) hchecked pool₀ hrun₀)

/-- A run is safe just when each checked call meets the condition of its function. -/
theorem arrays_safe_iff (fresh : ArrayT → ℕ → UInt8) (calls : List Call) :
    (Throughout ⟨fresh, none⟩ calls fun pool call =>
      Safe call.array (perform ⟨fresh, none⟩ pool call)) ↔
    Throughout ⟨fresh, none⟩ calls Meets := by
  constructor
  · intro hsafe earlier call hprefix hchecked pool hrun
    have hpool := hsafe.sane (fun _ _ _ _ h => h)
      ((List.prefix_append earlier [call]).trans hprefix) hrun
    exact (hpool.safe_iff rfl hchecked).mp (hsafe earlier call hprefix hchecked pool hrun)
  · intro hmeets earlier call hprefix hchecked pool hrun
    have hpool := hmeets.sane (fun _ _ h hcall hcond => (h.safe_iff rfl hcall).mpr hcond)
      ((List.prefix_append earlier [call]).trans hprefix) hrun
    exact (hpool.safe_iff rfl hchecked).mpr (hmeets earlier call hprefix hchecked pool hrun)

/-- The first of eight items is deleted, and the place behind the block is read. -/
theorem arrays_not_safe_full :
    ¬ Throughout ⟨fun _ _ => 0, none⟩
      (.create 1 none :: List.replicate 8 (.append 0 fun _ => 7) ++ [.delete 0 0])
      fun pool call => Safe call.array (perform ⟨fun _ _ => 0, none⟩ pool call) := by
  intro hsafe
  have hok : (after ⟨fun _ _ => 0, none⟩
      (.create 1 none :: List.replicate 8 (.append 0 fun _ => 7))).isOk = true := by
    decide
  obtain ⟨pool, hrun⟩ := exists_of_isOk hok
  have hlast : Safe 0 (perform ⟨fun _ _ => 0, none⟩ pool (.delete 0 0)) :=
    hsafe _ (.delete 0 0) List.prefix_rfl rfl pool hrun
  have hend : (after ⟨fun _ _ => 0, none⟩
      (.create 1 none :: List.replicate 8 (.append 0 fun _ => 7)) >>= fun pool =>
        perform ⟨fun _ _ => 0, none⟩ pool (.delete 0 0)) = .error .invalidAccess := by
    rfl
  rw [hrun, ok_bind] at hend
  rw [hend] at hlast
  exact not_safe_invalidAccess _ hlast

end ArrayT

end SimpleVm
