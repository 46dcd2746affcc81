import SimpleVm.Common.ArrayBounds
import SimpleVm.Lib.Sorting

/-!
# Searching an array

An array is sorted when it is searched and is not marked as sorted. No call
leaves an array marked with its items out of order, so what is searched is
always in order.
-/

namespace SimpleVm

namespace ArrayT

open Sorting

variable {u : Unspecified} {arr arr' : ArrayT} {l : List (List UInt8)}
  {comp : List UInt8 → List UInt8 → ℤ}

/-! ## Sorting -/

/-- An array with the items `l`, of the kind of `arr`. -/
structure SortsTo (arr : ArrayT) (l : List (List UInt8)) (arr' : ArrayT) : Prop where
  holds : Holds l arr'
  size_eq : arr'.size = arr.size
  comp_eq : arr'.comp = arr.comp

theorem swapArrayData_comp {idx1 idx2 : ℤ} (hrun : swapArrayData u arr idx1 idx2 = .ok arr') :
    arr'.comp = arr.comp := by
  unfold swapArrayData at hrun
  obtain ⟨i1, -, hrun⟩ := bind_eq_ok.mp hrun
  obtain ⟨i2, -, hrun⟩ := bind_eq_ok.mp hrun
  obtain ⟨tmp, -, hrun⟩ := bind_eq_ok.mp hrun
  obtain ⟨arr₁, hcopy, hrun⟩ := bind_eq_ok.mp hrun
  obtain ⟨arr₂, hwrite, hrun⟩ := bind_eq_ok.mp hrun
  cases hrun
  obtain ⟨buffer, rfl, -⟩ := (copyWithin_ok hcopy).trans (writeItem_ok hwrite)
  rfl

theorem Holds.sortRound (h : Holds l arr) (u : Unspecified) (hcomp : arr.comp = some comp) {i : ℕ}
    (hi : i + 1 < l.length) :
    ∃ arr', ArrayT.sortRound u arr i = .ok arr' ∧ SortsTo arr (compareSwap comp l i) arr' := by
  have hlt : i < l.length := Nat.lt_of_succ_lt hi
  have hleft := h.readItem u hlt
  have hright := h.readItem u hi
  have hswap : compareSwap comp l i =
      if 0 < comp l[i] l[i + 1] then (l.set i l[i + 1]).set (i + 1) l[i] else l := by
    rw [compareSwap, List.getElem?_eq_getElem hlt, List.getElem?_eq_getElem hi]
  rw [Int.natCast_add, Int.natCast_one] at hright
  simp only [ArrayT.sortRound, hleft, hright, hcomp, ok_bind, hswap]
  by_cases hgt : 0 < comp l[i] l[i + 1]
  · rw [if_pos hgt, if_pos hgt]
    have hnext := h.normalize_inside hi
    rw [Int.natCast_add, Int.natCast_one] at hnext
    obtain ⟨arr', hrun, hheld, hsize⟩ :=
      h.swapArrayData u (h.normalize_inside hlt) hnext hlt hi
    exact ⟨arr', hrun, hheld, hsize, swapArrayData_comp hrun⟩
  · rw [if_neg hgt, if_neg hgt]
    exact ⟨arr, rfl, h, rfl, rfl⟩

theorem SortsTo.trans {arr₁ arr₂ : ArrayT} {l₁ l₂ : List (List UInt8)}
    (h : SortsTo arr l₁ arr₁) (h' : SortsTo arr₁ l₂ arr₂) : SortsTo arr l₂ arr₂ :=
  ⟨h'.holds, h'.size_eq.trans h.size_eq, h'.comp_eq.trans h.comp_eq⟩

theorem Holds.sortPass (h : Holds l arr) (u : Unspecified) (hcomp : arr.comp = some comp)
    (step : ℕ) :
    ∃ arr', ArrayT.sortPass u arr step = .ok arr' ∧ SortsTo arr (bubblePass comp l step) arr' := by
  have hrounds : (arr.length - step - 1).toNat = l.length - step - 1 := by
    have hlen := h.length_eq
    omega
  have hround : ∀ l₁ arr₁ i, i ∈ List.range (l.length - step - 1) →
      SortsTo arr l₁ arr₁ ∧ l₁.length = l.length →
      ∃ arr₂, ArrayT.sortRound u arr₁ i = .ok arr₂ ∧ SortsTo arr (compareSwap comp l₁ i) arr₂ ∧
        (compareSwap comp l₁ i).length = l.length := by
    rintro l₁ arr₁ i hi ⟨hsorts, hlength⟩
    have hlt := List.mem_range.mp hi
    obtain ⟨arr₂, hrun, hsorts'⟩ :=
      hsorts.holds.sortRound u (hsorts.comp_eq.trans hcomp) (i := i) (by omega)
    exact ⟨arr₂, hrun, hsorts.trans hsorts', (length_compareSwap comp l₁ i).trans hlength⟩
  obtain ⟨arr', hrun, hsorts, -⟩ := foldlM_simulates hround ⟨⟨h, rfl, rfl⟩, rfl⟩
  rw [ArrayT.sortPass, hrounds]
  exact ⟨arr', hrun, hsorts⟩

theorem Holds.sortArray (h : Holds l arr) (u : Unspecified) (hcomp : arr.comp = some comp) :
    ∃ arr', ArrayT.sortArray u arr = .ok arr' ∧ SortsTo arr (bubbleSort comp l) arr' := by
  have hpasses : (arr.length - 1).toNat = l.length - 1 := by
    have hlen := h.length_eq
    omega
  have hpass : ∀ l₁ arr₁ step, step ∈ List.range (l.length - 1) → SortsTo arr l₁ arr₁ →
      ∃ arr₂, ArrayT.sortPass u arr₁ step = .ok arr₂ ∧
        SortsTo arr (bubblePass comp l₁ step) arr₂ := by
    intro l₁ arr₁ step _ hsorts
    obtain ⟨arr₂, hrun, hsorts'⟩ := hsorts.holds.sortPass u (hsorts.comp_eq.trans hcomp) step
    exact ⟨arr₂, hrun, hsorts.trans hsorts'⟩
  obtain ⟨arr₁, hrun, hsorts⟩ := foldlM_simulates hpass ⟨h, rfl, rfl⟩
  refine ⟨{ arr₁ with isSorted := true }, ?_, hsorts.holds.withSorted true, hsorts.size_eq,
    hsorts.comp_eq⟩
  rw [ArrayT.sortArray, hpasses, hrun, ok_bind]

/-! ## Searching -/

theorem Holds.search (h : Holds l arr) (u : Unspecified) (key : List UInt8) (fuel : ℕ)
    {low high : ℤ} (hlow : 0 ≤ low) (hhigh : high < l.length) :
    ArrayT.search u arr comp key fuel low high =
      match bisect (valueAt comp key l) fuel low high with
      | some idx => .ok idx
      | none => .error .diverges := by
  induction fuel generalizing low high with
  | zero => rfl
  | succ fuel ih =>
      rw [ArrayT.search, bisect]
      by_cases hle : low ≤ high
      · rw [if_pos hle, if_pos hle]
        obtain ⟨i, hi⟩ := Int.eq_ofNat_of_zero_le (a := low + (high - low) / 2) (by omega)
        have hlt : i < l.length := by omega
        simp only [hi, h.readItem u hlt, ok_bind, valueAt_natCast hlt]
        by_cases hzero : comp key l[i] = 0
        · rw [if_pos hzero, if_pos hzero]
        · rw [if_neg hzero, if_neg hzero]
          by_cases hpos : 0 < comp key l[i]
          · rw [if_pos hpos, if_pos hpos]
            exact ih (by omega) hhigh
          · rw [if_neg hpos, if_neg hpos]
            exact ih hlow (by omega)
      · rw [if_neg hle, if_neg hle]

/-- The items of an array that is marked as sorted are in order. -/
structure Searchable (arr : ArrayT) : Prop extends Sane arr where
  sorted : arr.isSorted = true → ∀ comp, arr.comp = some comp →
    TotalPreorderOn { x | x.length = arr.size } comp → ∃ l, Holds l arr ∧ Sorted comp l

/-- What a search is to find and may do to an array with the items `l`. -/
def Finds (u : Unspecified) (arr : ArrayT) (comp : List UInt8 → List UInt8 → ℤ)
    (key : List UInt8) (l : List (List UInt8)) : Prop :=
  ∃ idx arr' l', findArrayIndex u arr key = .ok (idx, arr') ∧ Holds l' arr' ∧ l'.Perm l ∧
    Sorted comp l' ∧ Found comp key l' idx

theorem Holds.findsSorted {key : List UInt8} {D : Set (List UInt8)} (h : Holds l arr)
    (u : Unspecified) (hcomp : TotalPreorderOn D comp)
    (hD : ∀ x, x.length = arr.size → x ∈ D) (hkey : key ∈ D) (hsorted : Sorted comp l) :
    ∃ idx, ArrayT.search u arr comp key (arr.length.toNat + 1) 0 (arr.length - 1) = .ok idx ∧
      Found comp key l idx := by
  have hl : ∀ x ∈ l, x ∈ D := fun x hx => hD x (h.sizes x hx)
  obtain ⟨idx, hbisect, hfound⟩ := hsorted.bisect_finds hcomp hl hkey
  refine ⟨idx, ?_, hfound⟩
  rw [h.length_eq, Int.toNat_natCast, h.search u key _ (Int.le_refl 0) (by omega), hbisect]

theorem Searchable.finds {key : List UInt8} {D : Set (List UInt8)} (h : Searchable arr)
    (u : Unspecified) (hcomp : arr.comp = some comp) (hD : TotalPreorderOn D comp)
    (hitems : ∀ x, x.length = arr.size → x ∈ D) (hkey : key ∈ D) :
    ∃ l, Holds l arr ∧ Finds u arr comp key l := by
  by_cases hmark : arr.isSorted = true
  · obtain ⟨l, hl, hsorted⟩ := h.sorted hmark comp hcomp (hD.mono hitems)
    obtain ⟨idx, hrun, hfound⟩ := hl.findsSorted u hD hitems hkey hsorted
    refine ⟨l, hl, idx, arr, l, ?_, hl, .refl l, hsorted, hfound⟩
    simp only [findArrayIndex, hcomp]
    rw [if_pos hmark, ok_bind, hrun, ok_bind]
  · obtain ⟨l, hl⟩ := h.toSane.exists_holds
    have hmem : ∀ x ∈ l, x ∈ D := fun x hx => hitems x (hl.sizes x hx)
    have hsorted := sorted_bubbleSort hD hmem
    obtain ⟨arr', hsort, hsorts⟩ := hl.sortArray u hcomp
    have hitems' : ∀ x, x.length = arr'.size → x ∈ D := hsorts.size_eq ▸ hitems
    obtain ⟨idx, hrun, hfound⟩ := hsorts.holds.findsSorted u hD hitems' hkey hsorted
    refine ⟨l, hl, idx, arr', _, ?_, hsorts.holds, (reordered_bubbleSort hD hmem).perm, hsorted,
      hfound⟩
    simp only [findArrayIndex, hcomp]
    rw [if_neg hmark, hsort, ok_bind, hrun, ok_bind]

/-! ## What each call leaves behind -/

/-- The call does not return an array that is marked as sorted. -/
def Unsorted (result : Except ArrayHalt ArrayT) : Prop :=
  ∀ arr, result = .ok arr → arr.isSorted = false

theorem unsorted_ok (h : arr.isSorted = false) : Unsorted (.ok arr) := by
  rintro arr' ⟨⟩
  exact h

theorem Unsorted.bind {β : Type} {x : Except ArrayHalt β} {f : β → Except ArrayHalt ArrayT}
    (h : ∀ b, Unsorted (f b)) : Unsorted (x >>= f) := by
  intro arr hrun
  obtain ⟨b, -, hrun⟩ := bind_eq_ok.mp hrun
  exact h b arr hrun

theorem unsorted_createArray (size : ℕ) (comp : Option (List UInt8 → List UInt8 → ℤ)) :
    Unsorted (createArray size comp) :=
  .bind fun _ => .bind fun _ => unsorted_ok rfl

theorem unsorted_clearArray (arr : ArrayT) : Unsorted (clearArray u arr) :=
  .bind fun _ => .bind fun _ => unsorted_ok rfl

theorem unsorted_appendArrayData (arr : ArrayT) (data : ℕ → UInt8) :
    Unsorted (appendArrayData u arr data) :=
  .bind fun _ => .bind fun _ => .bind fun _ => unsorted_ok rfl

theorem unsorted_insertArrayData (arr : ArrayT) (data : ℕ → UInt8) (index : ℤ) :
    Unsorted (insertArrayData u arr data index) :=
  .bind fun _ => .bind fun _ => .bind fun _ => .bind fun _ => .bind fun _ => .bind fun _ =>
    .bind fun _ => unsorted_ok rfl

theorem unsorted_deleteArrayData (arr : ArrayT) (index : ℤ) :
    Unsorted (deleteArrayData u arr index) :=
  .bind fun _ => .bind fun _ => .bind fun _ => .bind fun _ => .bind fun _ => unsorted_ok rfl

theorem unsorted_swapArrayData (arr : ArrayT) (idx1 idx2 : ℤ) :
    Unsorted (swapArrayData u arr idx1 idx2) :=
  .bind fun _ => .bind fun _ => .bind fun _ => .bind fun _ => .bind fun _ => unsorted_ok rfl

theorem unsorted_appendArray (dest : ArrayT) (src : ArrayT → ArrayT) :
    Unsorted (appendArray u dest src) :=
  .bind fun _ => .bind fun _ => .bind fun _ => .bind fun _ => .bind fun _ => .bind fun _ =>
    .bind fun _ => unsorted_ok rfl

theorem unsorted_insertArray (dest : ArrayT) (src : ArrayT → ArrayT) (index : ℤ) :
    Unsorted (insertArray u dest src index) :=
  .bind fun _ => .bind fun _ => .bind fun _ => .bind fun _ => .bind fun _ => .bind fun _ =>
    .bind fun _ => .bind fun _ => .bind fun _ => .bind fun _ => .bind fun _ => unsorted_ok rfl

theorem Sane.searchable (h : Sane arr) (hmark : arr.isSorted = false) : Searchable arr := by
  refine ⟨h, ?_⟩
  intro hsorted
  rw [hmark] at hsorted
  cases hsorted

/-- A shorter list of items that are in order is in order. -/
theorem Searchable.popArray (h : Searchable arr) : Searchable (ArrayT.popArray arr).2 := by
  refine ⟨h.toSane.popArray, ?_⟩
  unfold ArrayT.popArray
  split
  · next hpos =>
      intro hmark comp hcomp hpre
      obtain ⟨l, hl, hsorted⟩ := h.sorted hmark comp hcomp hpre
      have hlen := hl.length_eq
      rcases List.eq_nil_or_concat' l with rfl | ⟨rest, top, rfl⟩
      · rw [List.length_nil] at hlen
        omega
      · exact ⟨rest, hl.dropLast, (List.pairwise_append.mp hsorted).1⟩
  · exact h.sorted

theorem sortRound_comp {i : ℕ} (hrun : sortRound u arr i = .ok arr') : arr'.comp = arr.comp := by
  unfold sortRound at hrun
  obtain ⟨left, -, hrun⟩ := bind_eq_ok.mp hrun
  obtain ⟨right, -, hrun⟩ := bind_eq_ok.mp hrun
  split at hrun
  · cases hrun
  · split at hrun
    · exact swapArrayData_comp hrun
    · cases hrun
      rfl

theorem sortArray_comp (hrun : sortArray u arr = .ok arr') : arr'.comp = arr.comp := by
  unfold sortArray at hrun
  obtain ⟨arr₁, hpasses, hrun⟩ := bind_eq_ok.mp hrun
  cases hrun
  have hround : ∀ i arr₂ arr₃, arr₂.comp = arr.comp → sortRound u arr₂ i = .ok arr₃ →
      arr₃.comp = arr.comp := fun i arr₂ arr₃ h hrun => (sortRound_comp hrun).trans h
  have hpass : ∀ step arr₂ arr₃, arr₂.comp = arr.comp → sortPass u arr₂ step = .ok arr₃ →
      arr₃.comp = arr.comp := fun step arr₂ arr₃ h hrun => foldlM_invariant hround _ h hrun
  have hcomp : arr₁.comp = arr.comp :=
    foldlM_invariant (P := fun arr₂ => arr₂.comp = arr.comp) hpass _ rfl hpasses
  exact hcomp

theorem Searchable.sortArray (h : Searchable arr) (hrun : ArrayT.sortArray u arr = .ok arr') :
    Searchable arr' := by
  refine ⟨keeps_sortArray u arr arr' h.toSane hrun, ?_⟩
  intro _ comp hcomp hpre
  rw [sortArray_comp hrun] at hcomp
  obtain ⟨l, hl⟩ := h.toSane.exists_holds
  obtain ⟨arr₁, hsort, hsorts⟩ := hl.sortArray u hcomp
  rw [hrun] at hsort
  cases hsort
  rw [hsorts.size_eq] at hpre
  exact ⟨_, hsorts.holds, sorted_bubbleSort hpre hl.sizes⟩

theorem Searchable.findArrayIndex {key : List UInt8} {idx : ℤ} (h : Searchable arr)
    (hrun : ArrayT.findArrayIndex u arr key = .ok (idx, arr')) : Searchable arr' := by
  unfold ArrayT.findArrayIndex at hrun
  split at hrun
  · cases hrun
    exact h
  · dsimp only at hrun
    split at hrun
    · obtain ⟨arr₁, hsame, hrun⟩ := bind_eq_ok.mp hrun
      obtain ⟨found, -, hrun⟩ := bind_eq_ok.mp hrun
      cases hsame
      cases hrun
      exact h
    · obtain ⟨arr₁, hsort, hrun⟩ := bind_eq_ok.mp hrun
      obtain ⟨found, -, hrun⟩ := bind_eq_ok.mp hrun
      cases hrun
      exact h.sortArray hsort

theorem Searchable.findArray {key : List UInt8} {pos : Option ℤ} (h : Searchable arr)
    (hrun : ArrayT.findArray u arr key = .ok (pos, arr')) : Searchable arr' := by
  unfold ArrayT.findArray at hrun
  obtain ⟨⟨idx, arr₁⟩, hfind, hrun⟩ := bind_eq_ok.mp hrun
  have h₁ := h.findArrayIndex hfind
  dsimp only at hrun
  split at hrun
  · obtain ⟨found, -, hrun⟩ := bind_eq_ok.mp hrun
    cases hrun
    exact h₁
  · cases hrun
    exact h₁

theorem deleteArrayData_length {index : ℤ} (hrun : deleteArrayData u arr index = .ok arr') :
    arr'.length = arr.length - 1 := by
  unfold deleteArrayData at hrun
  obtain ⟨idx, -, hrun⟩ := bind_eq_ok.mp hrun
  obtain ⟨next, -, hrun⟩ := bind_eq_ok.mp hrun
  obtain ⟨tail, -, hrun⟩ := bind_eq_ok.mp hrun
  obtain ⟨arr₁, hcopy, hrun⟩ := bind_eq_ok.mp hrun
  obtain ⟨length, hlength, hrun⟩ := bind_eq_ok.mp hrun
  cases hrun
  rw [← (copyWithin_ok hcopy).length_eq]
  exact int_eq hlength

/-! ## Every run -/

def SearchablePool (pool : List ArrayT) : Prop := ∀ arr ∈ pool, Searchable arr

/-- Nothing is deleted from an array that has no item. -/
def DeletesItems (pool : List ArrayT) : Call → Prop
  | .delete n _ => ∀ arr, pool[n]? = some arr → 0 < arr.length
  | _ => True

variable {pool pool' : List ArrayT} {n : ℕ}

theorem SearchablePool.sane (h : SearchablePool pool) : SanePool pool :=
  fun arr hmem => (h arr hmem).toSane

theorem SearchablePool.get (h : SearchablePool pool) (harr : pool[n]? = some arr) :
    Searchable arr :=
  h arr (List.mem_of_getElem? harr)

theorem SearchablePool.set (h : SearchablePool pool) (harr : Searchable arr) :
    SearchablePool (pool.set n arr) := by
  intro arr' hmem
  rcases List.mem_or_eq_of_mem_set hmem with hold | rfl
  · exact h arr' hold
  · exact harr

theorem SearchablePool.change (h : SearchablePool pool) {f : ArrayT → Except ArrayHalt ArrayT}
    (hf : ∀ arr arr', Searchable arr → f arr = .ok arr' → Searchable arr') {answer : Answer}
    (hrun : ArrayT.change pool n f = .ok (answer, pool')) : SearchablePool pool' := by
  obtain ⟨arr, arr', harr, hok, rfl⟩ := change_ok hrun
  exact h.set (hf arr arr' (h.get harr) hok)

/-- The functions that leave an array unsorted. -/
theorem SearchablePool.changeUnsorted (h : SearchablePool pool)
    {f : ArrayT → Except ArrayHalt ArrayT} (hkeeps : Keeps f) (hf : ∀ arr, Unsorted (f arr))
    {answer : Answer} (hrun : ArrayT.change pool n f = .ok (answer, pool')) :
    SearchablePool pool' :=
  h.change (fun arr arr' harr hok => (hkeeps arr arr' harr.toSane hok).searchable (hf arr arr' hok))
    hrun

theorem SearchablePool.perform (h : SearchablePool pool) {call : Call} {answer : Answer}
    (hdelete : DeletesItems pool call)
    (hrun : ArrayT.perform u pool call = .ok (answer, pool')) : SearchablePool pool' := by
  cases call with
  | create size comp =>
      obtain ⟨arr, hcreate, hrun⟩ := bind_eq_ok.mp hrun
      cases hrun
      rcases createArray_cases size comp with ⟨arr', hcreate', hheld, -⟩ | ⟨-, hover⟩
      · rw [hcreate] at hcreate'
        cases hcreate'
        intro other hmem
        rcases List.mem_append.mp hmem with hold | hnew
        · exact h other hold
        · rw [List.mem_singleton.mp hnew]
          exact hheld.sane.searchable (unsorted_createArray size comp arr hcreate)
      · rw [hcreate] at hover
        cases hover
  | insertArray dest src index =>
      obtain ⟨f, hsource, hrun⟩ := bind_eq_ok.mp hrun
      refine h.change ?_ hrun
      intro arr arr' harr hok
      obtain ⟨s, hsrc⟩ := h.sane.exists_source hsource arr
      exact (harr.toSane.insertArray_ok hsrc hok).searchable (unsorted_insertArray arr f _ arr' hok)
  | appendArray dest src =>
      obtain ⟨f, hsource, hrun⟩ := bind_eq_ok.mp hrun
      refine h.change ?_ hrun
      intro arr arr' harr hok
      obtain ⟨s, hsrc⟩ := h.sane.exists_source hsource arr
      exact (harr.toSane.appendArray_ok hsrc hok).searchable (unsorted_appendArray arr f arr' hok)
  | clear n => exact h.changeUnsorted (keeps_clearArray u) unsorted_clearArray hrun
  | sort n => exact h.change (fun arr arr' harr hok => harr.sortArray hok) hrun
  | find n key =>
      obtain ⟨arr, harr, hrun⟩ := bind_eq_ok.mp hrun
      obtain ⟨⟨pos, arr'⟩, hfind, hrun⟩ := bind_eq_ok.mp hrun
      cases hrun
      exact h.set ((h.get (arrayAt_ok harr)).findArray hfind)
  | append n data =>
      exact h.changeUnsorted (keeps_appendArrayData u data)
        (fun arr => unsorted_appendArrayData arr data) hrun
  | push n data =>
      exact h.changeUnsorted (keeps_appendArrayData u data)
        (fun arr => unsorted_appendArrayData arr data) hrun
  | delete n index =>
      obtain ⟨arr, arr', harr, hok, rfl⟩ := change_ok hrun
      have hpos := hdelete arr harr
      have hless := deleteArrayData_length hok
      have hsane := (h.get harr).toSane.deleteArrayData_ok hok (by omega)
      exact h.set (hsane.searchable (unsorted_deleteArrayData arr _ arr' hok))
  | insert n data index =>
      exact h.changeUnsorted (keeps_insertArrayData u data index.toInt)
        (fun arr => unsorted_insertArrayData arr data _) hrun
  | iterate n post =>
      obtain ⟨arr, -, hrun⟩ := bind_eq_ok.mp hrun
      obtain ⟨⟨pos, mark⟩, -, hrun⟩ := bind_eq_ok.mp hrun
      cases hrun
      exact h
  | index n index =>
      obtain ⟨arr, -, hrun⟩ := bind_eq_ok.mp hrun
      obtain ⟨pos, -, hrun⟩ := bind_eq_ok.mp hrun
      cases hrun
      exact h
  | swap n idx1 idx2 =>
      exact h.changeUnsorted (keeps_swapArrayData u idx1.toInt idx2.toInt)
        (fun arr => unsorted_swapArrayData arr _ _) hrun
  | pop n =>
      obtain ⟨arr, harr, hrun⟩ := bind_eq_ok.mp hrun
      cases hrun
      exact h.set (h.get (arrayAt_ok harr)).popArray
  | peek n =>
      obtain ⟨arr, -, hrun⟩ := bind_eq_ok.mp hrun
      cases hrun
      exact h

theorem searchablePool_after {calls : List Call} (hdelete : Throughout u calls DeletesItems)
    (hrun : after u calls = .ok pool) : SearchablePool pool := by
  refine (isRun_after u).invariant (I := fun _ pool => SearchablePool pool) ?_ ?_ hrun
  · rintro pool ⟨⟩
    exact nofun
  · rintro pre call pool₀ pool₁ hpre hrun₀ h₀ ⟨answer, hcall⟩
    refine h₀.perform ?_ hcall
    cases call with
    | delete n index => exact hdelete pre (.delete n index) hpre rfl pool₀ hrun₀
    | _ => trivial

/-- After every run an array finds what it has, and at most puts its items in order. -/
theorem array_finds_after {calls : List Call} (hdelete : Throughout u calls DeletesItems)
    (hrun : after u calls = .ok pool) (harr : pool[n]? = some arr) (hcomp : arr.comp = some comp)
    {D : Set (List UInt8)} (hD : TotalPreorderOn D comp)
    (hitems : ∀ x, x.length = arr.size → x ∈ D) {key : List UInt8} (hkey : key ∈ D) :
    ∃ l, Holds l arr ∧ Finds u arr comp key l :=
  ((searchablePool_after hdelete hrun).get harr).finds u hcomp hD hitems hkey

/-- Items compared by their first byte. -/
def compFirst (x y : List UInt8) : ℤ := ((x.headD 0).toNat : ℤ) - (y.headD 0).toNat

theorem totalPreorderOn_compFirst : TotalPreorderOn Set.univ compFirst := by
  constructor
  · intro x _ y _
    unfold compFirst
    omega
  · intro x _ y _ z _ hxy hyz
    unfold compFirst at *
    omega

/-- The items 3 and 1 are sorted, and then 4 and 2 come behind them. -/
def fourItems : List Call :=
  [.create 1 (some compFirst), .append 0 fun _ => 3, .append 0 fun _ => 1, .sort 0,
    .append 0 fun _ => 4, .append 0 fun _ => 2]

theorem deletesItems_fourItems :
    Throughout ⟨fun _ _ => 0, none⟩ (fourItems ++ [.delete 0 0]) DeletesItems := by
  intro earlier call hprefix _ pool hpool
  cases call with
  | delete n index =>
      rcases List.prefix_concat_iff.mp hprefix with hlast | hbefore
      · obtain ⟨rfl, hcall⟩ := List.append_inj' hlast rfl
        have hfour : after ⟨fun _ _ => 0, none⟩ fourItems =
            .ok [⟨[1, 3, 4, 2, 0, 0, 0, 0], 8, 4, 1, some compFirst, false⟩] := rfl
        cases hcall
        cases hfour.symm.trans hpool
        rintro arr ⟨⟩
        decide
      · have hmem := hbefore.subset (List.mem_append_right earlier (List.mem_singleton_self _))
        simp [fourItems] at hmem
  | _ => trivial

def fourDeleted : ArrayT := ⟨[3, 4, 2, 0, 0, 0, 0, 0], 8, 3, 1, some compFirst, false⟩

/-- When 1 is deleted, 2 is found among 3, 4 and 2 as they are sorted, and 1 is not. -/
theorem array_finds_after_delete :
    after ⟨fun _ _ => 0, none⟩ (fourItems ++ [.delete 0 0]) = .ok [fourDeleted] ∧
      Holds [[3], [4], [2]] fourDeleted ∧
      (∃ l, Holds l fourDeleted ∧ Finds ⟨fun _ _ => 0, none⟩ fourDeleted compFirst [2] l) ∧
      (∃ l, Holds l fourDeleted ∧ Finds ⟨fun _ _ => 0, none⟩ fourDeleted compFirst [1] l) ∧
      (findArrayIndex ⟨fun _ _ => 0, none⟩ fourDeleted [2]).map Prod.fst = .ok 0 ∧
      (findArrayIndex ⟨fun _ _ => 0, none⟩ fourDeleted [1]).map Prod.fst = .ok (-1) := by
  have hrun : after ⟨fun _ _ => 0, none⟩ (fourItems ++ [.delete 0 0]) = .ok [fourDeleted] := rfl
  have hfinds : ∀ key, ∃ l, Holds l fourDeleted ∧
      Finds ⟨fun _ _ => 0, none⟩ fourDeleted compFirst key l := fun _ =>
    array_finds_after (n := 0) deletesItems_fourItems hrun rfl rfl totalPreorderOn_compFirst
      (fun _ _ => trivial) trivial
  have hheld : Holds [[3], [4], [2]] fourDeleted :=
    ⟨⟨rfl, by decide, ⟨3, rfl⟩, by decide, by decide⟩, rfl, by decide, by decide,
      List.prefix_append [3, 4, 2] [0, 0, 0, 0, 0]⟩
  exact ⟨hrun, hheld, hfinds [2], hfinds [1], rfl, rfl⟩

end ArrayT

end SimpleVm
