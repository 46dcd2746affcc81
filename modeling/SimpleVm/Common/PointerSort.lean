import SimpleVm.Common.PointerList
import SimpleVm.Lib.Sorting

/-!
# Sorting and searching pointer lists

A list is only searched while it is marked as sorted. Appending takes the mark
away, and what is left when a pointer is popped is still in order.
-/

namespace SimpleVm

universe u

namespace PointerList

open Sorting

variable {α : Type u}

/-! ## The source -/

def sortRound (compFunc : Option α → Option α → ℤ) (lst : PointerList α) (i : ℕ) :
    Except Halt (PointerList α) :=
  match lst.buffer[i]?, lst.buffer[i + 1]? with
  | some tmp, some next =>
      if 0 < compFunc tmp next then
        .ok { lst with buffer := (lst.buffer.set i next).set (i + 1) tmp }
      else .ok lst
  | _, _ => .error .invalidAccess

def sortPass (compFunc : Option α → Option α → ℤ) (lst : PointerList α) (step : ℕ) :
    Except Halt (PointerList α) :=
  (List.range (lst.len - step - 1)).foldlM (sortRound compFunc) lst

def sortPtrList (lst : PointerList α) (compFunc : Option α → Option α → ℤ) :
    Except Halt (PointerList α) := do
  let lst ← (List.range (lst.len - 1)).foldlM (sortPass compFunc) lst
  .ok { lst with isSorted := true }

def search (lst : PointerList α) (key : Option α) (compFunc : Option α → Option α → ℤ) :
    ℕ → ℤ → ℤ → Except Halt ℤ
  | 0, _, _ => .error .diverges
  | fuel + 1, low, high =>
      if low ≤ high then
        let mid := low + (high - low) / 2
        match lst.buffer[mid.toNat]? with
        | none => .error .invalidAccess
        | some ptr =>
            let val := compFunc key ptr
            if val = 0 then .ok mid
            else if 0 < val then search lst key compFunc fuel (mid + 1) high
            else search lst key compFunc fuel low (mid - 1)
      else .ok (-1)

def findPtrListIdx (lst : PointerList α) (key : Option α)
    (compFunc : Option α → Option α → ℤ) : Except Halt ℤ :=
  if lst.isSorted then search lst key compFunc (lst.len + 1) 0 (lst.len - 1) else .ok (-1)

def findPtrList (lst : PointerList α) (key : Option α) (compFunc : Option α → Option α → ℤ) :
    Except Halt (Option α) :=
  match findPtrListIdx lst key compFunc with
  | .error e => .error e
  | .ok idx => if 0 ≤ idx then lst.indexPtrList idx else .ok none

/-! ## Sorting -/

variable {elems elems' : List (Option α)} {lst lst' : PointerList α}
  {comp : Option α → Option α → ℤ} {D : Set (Option α)}

theorem Holds.withSorted (h : Holds elems lst) (isSorted : Bool) :
    Holds elems { lst with isSorted := isSorted } :=
  ⟨h.length_buffer, h.elems_start, h.len_eq, h.len_le, h.cap_pow⟩

theorem Holds.sortRound (h : Holds elems lst) (comp : Option α → Option α → ℤ) {i : ℕ}
    (hi : i + 1 < elems.length) :
    ∃ lst', PointerList.sortRound comp lst i = .ok lst' ∧ Holds (compareSwap comp elems i) lst' := by
  obtain ⟨pre, x, y, post, rfl, rfl⟩ := exists_split hi
  obtain ⟨rest, hrest⟩ := h.elems_start
  have hx : lst.buffer[pre.length]? = some x := by
    rw [h.getElem?_buffer (Nat.lt_of_succ_lt hi), List.getElem_append_right (Nat.le_refl _)]
    simp
  have hy : lst.buffer[pre.length + 1]? = some y := by
    rw [h.getElem?_buffer hi, List.getElem_append_right (Nat.le_add_right _ 1)]
    simp
  rw [PointerList.sortRound, hx, hy, compareSwap_append]
  dsimp only
  by_cases hgt : 0 < comp x y
  · rw [if_pos hgt, if_pos hgt]
    have hset : (lst.buffer.set pre.length y).set (pre.length + 1) x =
        pre ++ y :: x :: post ++ rest := by
      rw [← hrest]
      simp
    have hlen := h.len_eq
    refine ⟨_, rfl, ?_, ?_, ?_, h.len_le, h.cap_pow⟩
    · rw [List.length_set, List.length_set]
      exact h.length_buffer
    · exact ⟨rest, hset.symm⟩
    · simpa using hlen
  · rw [if_neg hgt, if_neg hgt]
    exact ⟨lst, rfl, h⟩

theorem Holds.sortPass (h : Holds elems lst) (comp : Option α → Option α → ℤ) (step : ℕ) :
    ∃ lst', PointerList.sortPass comp lst step = .ok lst' ∧
      Holds (bubblePass comp elems step) lst' := by
  have hround : ∀ l lst i, i ∈ List.range (elems.length - step - 1) →
      Holds l lst ∧ l.length = elems.length →
      ∃ lst', PointerList.sortRound comp lst i = .ok lst' ∧ Holds (compareSwap comp l i) lst' ∧
        (compareSwap comp l i).length = elems.length := by
    rintro l lst i hi ⟨hl, hlength⟩
    have hlt := List.mem_range.mp hi
    obtain ⟨lst', hrun, hl'⟩ := hl.sortRound comp (i := i) (by omega)
    exact ⟨lst', hrun, hl', (length_compareSwap comp l i).trans hlength⟩
  obtain ⟨lst', hrun, hheld, -⟩ := foldlM_simulates hround ⟨h, rfl⟩
  rw [PointerList.sortPass, h.len_eq]
  exact ⟨lst', hrun, hheld⟩

theorem Holds.sortPtrList (h : Holds elems lst) (comp : Option α → Option α → ℤ) :
    ∃ lst', PointerList.sortPtrList lst comp = .ok lst' ∧ Holds (bubbleSort comp elems) lst' := by
  have hpass : ∀ l lst step, step ∈ List.range (elems.length - 1) → Holds l lst →
      ∃ lst', PointerList.sortPass comp lst step = .ok lst' ∧
        Holds (bubblePass comp l step) lst' := by
    intro l lst step _ hl
    exact hl.sortPass comp step
  obtain ⟨lst₁, hrun, h₁⟩ := foldlM_simulates hpass h
  refine ⟨{ lst₁ with isSorted := true }, ?_, h₁.withSorted true⟩
  rw [PointerList.sortPtrList, h.len_eq, hrun, ok_bind]

/-! ## Searching -/

theorem Holds.search (h : Holds elems lst) (key : Option α) (comp : Option α → Option α → ℤ)
    (fuel : ℕ) {low high : ℤ} (hlow : 0 ≤ low) (hhigh : high < elems.length) :
    PointerList.search lst key comp fuel low high =
      match bisect (valueAt comp key elems) fuel low high with
      | some idx => .ok idx
      | none => .error .diverges := by
  induction fuel generalizing low high with
  | zero => rfl
  | succ fuel ih =>
      rw [PointerList.search, bisect]
      by_cases hle : low ≤ high
      · rw [if_pos hle, if_pos hle]
        obtain ⟨i, hi⟩ := Int.eq_ofNat_of_zero_le (a := low + (high - low) / 2) (by omega)
        have hlt : i < elems.length := by omega
        simp only [hi, Int.toNat_natCast, h.getElem?_buffer hlt, valueAt_natCast hlt]
        by_cases hzero : comp key elems[i] = 0
        · rw [if_pos hzero, if_pos hzero]
        · rw [if_neg hzero, if_neg hzero]
          by_cases hpos : 0 < comp key elems[i]
          · rw [if_pos hpos, if_pos hpos]
            exact ih (by omega) hhigh
          · rw [if_neg hpos, if_neg hpos]
            exact ih hlow (by omega)
      · rw [if_neg hle, if_neg hle]

theorem Holds.findPtrListIdx {key : Option α} (h : Holds elems lst) (hmark : lst.isSorted = true)
    (hsorted : Sorted comp elems) (hD : TotalPreorderOn D comp) (hmem : ∀ ptr ∈ elems, ptr ∈ D)
    (hkey : key ∈ D) :
    ∃ idx, PointerList.findPtrListIdx lst key comp = .ok idx ∧ Found comp key elems idx := by
  obtain ⟨idx, hbisect, hfound⟩ := hsorted.bisect_finds hD hmem hkey
  refine ⟨idx, ?_, hfound⟩
  rw [PointerList.findPtrListIdx, if_pos hmark, h.len_eq,
    h.search key comp _ (Int.le_refl 0) (by omega), hbisect]

/-! ## Every run -/

inductive SortCall (α : Type u) where
  | append (ptr : Option α)
  | push (ptr : Option α)
  | pop
  | sort

/-- What is put on the list is in the domain of the comparator. -/
def SortCall.IsIn (D : Set (Option α)) : SortCall α → Prop
  | .append ptr | .push ptr => ptr ∈ D
  | .pop | .sort => True

def performSorted (fresh : PointerList α → ℕ → Option α) (comp : Option α → Option α → ℤ)
    (lst : PointerList α) : SortCall α → Except Halt (PointerList α)
  | .append ptr => lst.appendPtrList (fresh lst) ptr
  | .push ptr => lst.pushPtrList (fresh lst) ptr
  | .pop => do
      let (_, lst) ← lst.popPtrList
      .ok lst
  | .sort => lst.sortPtrList comp

/-- The list is sorted, and the calls come after that. -/
def afterSort (fresh : PointerList α → ℕ → Option α) (comp : Option α → Option α → ℤ)
    (lst : PointerList α) (calls : List (SortCall α)) : Except Halt (PointerList α) := do
  let lst ← lst.sortPtrList comp
  calls.foldlM (performSorted fresh comp) lst

/-- What is marked as sorted is in order. -/
structure Searchable (D : Set (Option α)) (comp : Option α → Option α → ℤ)
    (elems : List (Option α)) (lst : PointerList α) : Prop where
  holds : Holds elems lst
  mem : ∀ ptr ∈ elems, ptr ∈ D
  sorted : lst.isSorted = true → Sorted comp elems

/-- Sorting and the searches after it. -/
structure SortsAndFinds (fresh : PointerList α → ℕ → Option α) (D : Set (Option α))
    (comp : Option α → Option α → ℤ) (elems : List (Option α)) (lst : PointerList α) : Prop where
  sorts : ∃ lst' elems', lst.sortPtrList comp = .ok lst' ∧ Holds elems' lst' ∧
    Sorted comp elems' ∧ Reordered D comp elems elems'
  finds : ∀ calls : List (SortCall α), (∀ call ∈ calls, call.IsIn D) →
    ∀ lst', afterSort fresh comp lst calls = .ok lst' → ∃ elems', Holds elems' lst' ∧
      (lst'.isSorted = true → ∀ key ∈ D, ∃ idx, findPtrListIdx lst' key comp = .ok idx ∧
        Found comp key elems' idx)

theorem appendPtrList_unsorted {fresh : ℕ → Option α} {ptr : Option α}
    (hrun : lst.appendPtrList fresh ptr = .ok lst') : lst'.isSorted = false := by
  unfold appendPtrList at hrun
  obtain ⟨room, -, hrun⟩ := bind_eq_ok.mp hrun
  split at hrun
  · cases hrun
    rfl
  · cases hrun

theorem popPtrList_isSorted {ptr : Option α} (hrun : lst.popPtrList = .ok (ptr, lst')) :
    lst'.isSorted = lst.isSorted := by
  unfold popPtrList at hrun
  split at hrun
  · split at hrun
    · cases hrun
      rfl
    · cases hrun
  · cases hrun
    rfl

theorem Searchable.append (h : Searchable D comp elems lst) {fresh : ℕ → Option α}
    {ptr : Option α} (hptr : ptr ∈ D) (hrun : lst.appendPtrList fresh ptr = .ok lst') :
    Searchable D comp (elems ++ [ptr]) lst' := by
  obtain ⟨lst₁, happend, hheld⟩ := h.holds.appendPtrList (h.holds.room_of_ok hrun) fresh ptr
  rw [hrun] at happend
  cases happend
  refine ⟨hheld, ?_, ?_⟩
  · intro ptr' hmem
    rcases List.mem_append.mp hmem with hold | hnew
    · exact h.mem ptr' hold
    · rw [List.mem_singleton.mp hnew]
      exact hptr
  · intro hmark
    rw [appendPtrList_unsorted hrun] at hmark
    cases hmark

theorem Searchable.pop (h : Searchable D comp elems lst) {ptr : Option α}
    (hrun : lst.popPtrList = .ok (ptr, lst')) : Searchable D comp elems.dropLast lst' := by
  obtain ⟨lst₁, hpop, hheld⟩ := h.holds.popPtrList
  rw [hrun] at hpop
  cases hpop
  refine ⟨hheld, fun ptr' hmem => h.mem ptr' (List.dropLast_subset elems hmem), ?_⟩
  intro hmark
  rw [popPtrList_isSorted hrun] at hmark
  exact (h.sorted hmark).sublist (List.dropLast_sublist elems)

theorem Searchable.sort (h : Searchable D comp elems lst) (hD : TotalPreorderOn D comp)
    (hrun : lst.sortPtrList comp = .ok lst') : Searchable D comp (bubbleSort comp elems) lst' := by
  obtain ⟨lst₁, hsort, hheld⟩ := h.holds.sortPtrList comp
  rw [hrun] at hsort
  cases hsort
  exact ⟨hheld, (reordered_bubbleSort hD h.mem).mem h.mem, fun _ => sorted_bubbleSort hD h.mem⟩

theorem Searchable.performSorted (h : Searchable D comp elems lst) (hD : TotalPreorderOn D comp)
    {fresh : PointerList α → ℕ → Option α} {call : SortCall α} (hcall : call.IsIn D)
    (hrun : PointerList.performSorted fresh comp lst call = .ok lst') :
    ∃ elems', Searchable D comp elems' lst' := by
  cases call with
  | append ptr => exact ⟨_, h.append hcall hrun⟩
  | push ptr =>
      rw [PointerList.performSorted, pushPtrList_eq] at hrun
      exact ⟨_, h.append hcall hrun⟩
  | pop =>
      obtain ⟨⟨ptr, lst₁⟩, hpop, hrun⟩ := bind_eq_ok.mp hrun
      cases hrun
      exact ⟨_, h.pop hpop⟩
  | sort => exact ⟨_, h.sort hD hrun⟩

theorem Searchable.foldlM (h : Searchable D comp elems lst) (hD : TotalPreorderOn D comp)
    {fresh : PointerList α → ℕ → Option α} {calls : List (SortCall α)}
    (hcalls : ∀ call ∈ calls, call.IsIn D)
    (hrun : calls.foldlM (PointerList.performSorted fresh comp) lst = .ok lst') :
    ∃ elems', Searchable D comp elems' lst' := by
  induction calls generalizing elems lst with
  | nil =>
      cases hrun
      exact ⟨elems, h⟩
  | cons call calls ih =>
      rw [List.foldlM_cons] at hrun
      obtain ⟨lst₁, hstep, hrun⟩ := bind_eq_ok.mp hrun
      obtain ⟨elems₁, h₁⟩ := h.performSorted hD (hcalls call List.mem_cons_self) hstep
      exact ih h₁ (fun call' hmem => hcalls call' (List.mem_cons_of_mem call hmem)) hrun

/-- Sorting is stable, and what is marked as sorted later on is searched well. -/
theorem sorts_and_finds (fresh : PointerList α → ℕ → Option α) (h : Holds elems lst)
    (hD : TotalPreorderOn D comp) (hmem : ∀ ptr ∈ elems, ptr ∈ D) :
    SortsAndFinds fresh D comp elems lst := by
  obtain ⟨lst₁, hsort, h₁⟩ := h.sortPtrList comp
  have hreordered := reordered_bubbleSort hD hmem
  refine ⟨⟨lst₁, _, hsort, h₁, sorted_bubbleSort hD hmem, hreordered⟩, ?_⟩
  intro calls hcalls lst' hrun
  rw [afterSort, hsort, ok_bind] at hrun
  have hstart : Searchable D comp (bubbleSort comp elems) lst₁ :=
    ⟨h₁, hreordered.mem hmem, fun _ => sorted_bubbleSort hD hmem⟩
  obtain ⟨elems', hend⟩ := hstart.foldlM hD hcalls hrun
  refine ⟨elems', hend.holds, ?_⟩
  intro hmark key hkey
  exact hend.holds.findPtrListIdx hmark (hend.sorted hmark) hD hend.mem hkey

def compNumbers (x y : Option ℕ) : ℤ := (x.getD 0 : ℤ) - y.getD 0

theorem totalPreorderOn_compNumbers : TotalPreorderOn Set.univ compNumbers := by
  constructor
  · intro x _ y _
    unfold compNumbers
    omega
  · intro x _ y _ z _ hxy hyz
    unfold compNumbers at *
    omega

theorem holds_pair : Holds [some 2, some 1] (⟨[some 2, some 1] ++ List.replicate 6 none, 2, 8,
    false⟩ : PointerList ℕ) := by
  have hlen : 2 ≤ 8 := by omega
  exact ⟨rfl, List.prefix_append _ _, rfl, hlen, 3, by omega, rfl⟩

theorem pair_sorts_and_finds :
    SortsAndFinds (fun _ _ => none) Set.univ compNumbers [some 2, some 1]
      ⟨[some 2, some 1] ++ List.replicate 6 none, 2, 8, false⟩ :=
  sorts_and_finds _ holds_pair totalPreorderOn_compNumbers fun _ _ => trivial

end PointerList

end SimpleVm
