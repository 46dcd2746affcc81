import SimpleVm.Common.ArrayInserts

/-!
# What the calls on arrays return with

A call that returns leaves an array with a length between zero and its
capacity. Only a deletion can leave a length that is negative.
-/

namespace SimpleVm

namespace ArrayT

variable {u : Unspecified} {arr arr' arr'' : ArrayT}

/-! ## Copying -/

theorem Rewritten.trans (h : Rewritten arr arr') (h' : Rewritten arr' arr'') :
    Rewritten arr arr'' := by
  obtain ⟨buffer, rfl, hlen⟩ := h
  obtain ⟨buffer', rfl, hlen'⟩ := h'
  exact ⟨buffer', rfl, hlen'.trans hlen⟩

theorem Rewritten.formed (h : Rewritten arr arr') (harr : Formed arr) : Formed arr' := by
  obtain ⟨buffer, rfl, hlen⟩ := h
  exact harr.withBuffer hlen

theorem Rewritten.length_eq (h : Rewritten arr arr') : arr'.length = arr.length := by
  obtain ⟨buffer, rfl, -⟩ := h
  rfl

theorem Rewritten.capacity_eq (h : Rewritten arr arr') : arr'.capacity = arr.capacity := by
  obtain ⟨buffer, rfl, -⟩ := h
  rfl

theorem Rewritten.size_eq (h : Rewritten arr arr') : arr'.size = arr.size := by
  obtain ⟨buffer, rfl, -⟩ := h
  rfl

theorem Rewritten.sane (h : Rewritten arr arr') (harr : Sane arr) : Sane arr' := by
  refine ⟨h.formed harr.toFormed, ?_, ?_⟩
  · rw [h.length_eq]
    exact harr.length_nonneg
  · rw [h.length_eq, h.capacity_eq]
    exact harr.length_le

theorem copyWithin_ok {dest src n : ℤ} (hrun : copyWithin u arr dest src n = .ok arr') :
    Rewritten arr arr' := by
  unfold copyWithin at hrun
  obtain ⟨off, -, hrun⟩ := bind_eq_ok.mp hrun
  obtain ⟨start, -, hrun⟩ := bind_eq_ok.mp hrun
  obtain ⟨bytes, -, hrun⟩ := bind_eq_ok.mp hrun
  exact store_ok hrun

theorem writeItem_ok {pos : ℤ} {item : List UInt8} (hrun : writeItem arr pos item = .ok arr') :
    Rewritten arr arr' := by
  unfold writeItem at hrun
  obtain ⟨off, -, hrun⟩ := bind_eq_ok.mp hrun
  exact store_ok hrun

theorem int_eq {n m : ℤ} (h : int n = .ok m) : m = n := by
  unfold int at h
  split at h
  · cases h
    rfl
  · cases h

theorem Formed.withLength (h : Formed arr) (length : ℤ) (isSorted : Bool) :
    Formed { arr with length := length, isSorted := isSorted } :=
  ⟨h.length_buffer, h.capacity_ge, h.capacity_pow, h.capacity_lt, h.bytes_lt⟩

/-! ## Growing -/

theorem Sane.resize_ok (h : Sane arr) {n : ℤ} (hn : 0 ≤ n) (hrun : resize u arr n = .ok arr') :
    Sane arr' ∧ arr'.size = arr.size ∧ arr'.length = arr.length ∧
      arr.length + n ≤ arr'.capacity := by
  obtain ⟨l, hl⟩ := h.exists_holds
  obtain ⟨k, rfl⟩ := Int.eq_ofNat_of_zero_le hn
  rcases hl.resize_cases u k with ⟨-, arr₁, hresize, h₁, hgrown⟩ | ⟨-, -, hfatal⟩ | ⟨-, hover⟩
  · rw [hresize] at hrun
    cases hrun
    exact ⟨h₁.sane, hgrown.size_eq, h₁.length_eq.trans hl.length_eq.symm, hgrown.room⟩
  · rw [hfatal] at hrun
    cases hrun
  · rw [hover] at hrun
    cases hrun

/-- The new items are counted after they are written. -/
theorem Sane.longer (h : Sane arr) {n m : ℤ} (hn : 0 ≤ n) (hroom : arr.length + n ≤ arr.capacity)
    (hm : int (arr.length + n) = .ok m) : Sane { arr with length := m, isSorted := false } := by
  have hpos := h.length_nonneg
  cases int_eq hm
  refine ⟨h.toFormed.withLength _ _, ?_, hroom⟩
  dsimp only
  omega

/-- The call does not spoil an array. -/
def Keeps (f : ArrayT → Except ArrayHalt ArrayT) : Prop :=
  ∀ arr arr', Sane arr → f arr = .ok arr' → Sane arr'

theorem keeps_appendArrayData (u : Unspecified) (data : ℕ → UInt8) :
    Keeps fun arr => appendArrayData u arr data := by
  intro arr arr' h hrun
  unfold appendArrayData at hrun
  obtain ⟨arr₁, hresize, hrun⟩ := bind_eq_ok.mp hrun
  obtain ⟨arr₂, hwrite, hrun⟩ := bind_eq_ok.mp hrun
  obtain ⟨length, hlength, hrun⟩ := bind_eq_ok.mp hrun
  cases hrun
  obtain ⟨h₁, -, hlen₁, hroom⟩ := h.resize_ok (by omega) hresize
  have hwritten := writeItem_ok hwrite
  have hroom₂ : arr₂.length + 1 ≤ arr₂.capacity := by
    rwa [hwritten.length_eq, hwritten.capacity_eq, hlen₁]
  exact (hwritten.sane h₁).longer (by omega) hroom₂ hlength

theorem keeps_insertArrayData (u : Unspecified) (data : ℕ → UInt8) (index : ℤ) :
    Keeps fun arr => insertArrayData u arr data index := by
  intro arr arr' h hrun
  unfold insertArrayData at hrun
  obtain ⟨idx, -, hrun⟩ := bind_eq_ok.mp hrun
  obtain ⟨arr₁, hresize, hrun⟩ := bind_eq_ok.mp hrun
  obtain ⟨next, -, hrun⟩ := bind_eq_ok.mp hrun
  obtain ⟨tail, -, hrun⟩ := bind_eq_ok.mp hrun
  obtain ⟨arr₂, hcopy, hrun⟩ := bind_eq_ok.mp hrun
  obtain ⟨arr₃, hwrite, hrun⟩ := bind_eq_ok.mp hrun
  obtain ⟨length, hlength, hrun⟩ := bind_eq_ok.mp hrun
  cases hrun
  obtain ⟨h₁, -, hlen₁, hroom⟩ := h.resize_ok (by omega) hresize
  have hwritten := (copyWithin_ok hcopy).trans (writeItem_ok hwrite)
  have hroom₃ : arr₃.length + 1 ≤ arr₃.capacity := by
    rwa [hwritten.length_eq, hwritten.capacity_eq, hlen₁]
  exact (hwritten.sane h₁).longer (by omega) hroom₃ hlength

/-! ## Another array put in -/

/-- The source has the length that it had when the destination grew. -/
theorem Source.longer {dest dest₁ dest₂ s : ArrayT} {src : ArrayT → ArrayT} (hdest : Sane dest)
    (hsrc : Source dest src s) (hresize : resize u dest (src dest).length = .ok dest₁)
    (hwritten : Rewritten dest₁ dest₂) {length : ℤ}
    (hlength : int (dest₂.length + (src dest₂).length) = .ok length) :
    Sane { dest₂ with length := length, isSorted := false } := by
  obtain ⟨hsane, -, hlen⟩ := hsrc dest hdest rfl rfl
  have hpos : 0 ≤ (src dest).length := hsane.length_nonneg
  obtain ⟨h₁, hsize₁, hlen₁, hroom⟩ := hdest.resize_ok hpos hresize
  have h₂ := hwritten.sane h₁
  obtain ⟨-, -, hlen₂⟩ := hsrc dest₂ h₂ (hwritten.size_eq.trans hsize₁)
    (hwritten.length_eq.trans hlen₁)
  have hroom₂ : dest₂.length + (src dest₂).length ≤ dest₂.capacity := by
    rwa [hwritten.length_eq, hwritten.capacity_eq, hlen₁, hlen₂, ← hlen]
  refine h₂.longer ?_ hroom₂ hlength
  rwa [hlen₂, ← hlen]

theorem Sane.insertArray_ok {dest dest' s : ArrayT} {src : ArrayT → ArrayT} {index : ℤ}
    (h : Sane dest) (hsrc : Source dest src s) (hrun : insertArray u dest src index = .ok dest') :
    Sane dest' := by
  unfold insertArray at hrun
  obtain ⟨idx, -, hrun⟩ := bind_eq_ok.mp hrun
  obtain ⟨dest₁, hresize, hrun⟩ := bind_eq_ok.mp hrun
  obtain ⟨behind, -, hrun⟩ := bind_eq_ok.mp hrun
  obtain ⟨tail, -, hrun⟩ := bind_eq_ok.mp hrun
  obtain ⟨dest₂, hcopy, hrun⟩ := bind_eq_ok.mp hrun
  obtain ⟨off, -, hrun⟩ := bind_eq_ok.mp hrun
  obtain ⟨start, -, hrun⟩ := bind_eq_ok.mp hrun
  obtain ⟨n, -, hrun⟩ := bind_eq_ok.mp hrun
  obtain ⟨bytes, -, hrun⟩ := bind_eq_ok.mp hrun
  obtain ⟨dest₃, hstore, hrun⟩ := bind_eq_ok.mp hrun
  obtain ⟨length, hlength, hrun⟩ := bind_eq_ok.mp hrun
  cases hrun
  exact hsrc.longer h hresize ((copyWithin_ok hcopy).trans (store_ok hstore)) hlength

theorem Sane.appendArray_ok {dest dest' s : ArrayT} {src : ArrayT → ArrayT} (h : Sane dest)
    (hsrc : Source dest src s) (hrun : appendArray u dest src = .ok dest') : Sane dest' := by
  unfold appendArray at hrun
  obtain ⟨dest₁, hresize, hrun⟩ := bind_eq_ok.mp hrun
  obtain ⟨off, -, hrun⟩ := bind_eq_ok.mp hrun
  obtain ⟨start, -, hrun⟩ := bind_eq_ok.mp hrun
  obtain ⟨n, -, hrun⟩ := bind_eq_ok.mp hrun
  obtain ⟨bytes, -, hrun⟩ := bind_eq_ok.mp hrun
  obtain ⟨dest₂, hstore, hrun⟩ := bind_eq_ok.mp hrun
  obtain ⟨length, hlength, hrun⟩ := bind_eq_ok.mp hrun
  cases hrun
  exact hsrc.longer h hresize (store_ok hstore) hlength

/-! ## The other calls -/

theorem Sane.withSorted (h : Sane arr) (isSorted : Bool) :
    Sane { arr with isSorted := isSorted } :=
  ⟨h.toFormed.withLength _ _, h.length_nonneg, h.length_le⟩

theorem keeps_clearArray (u : Unspecified) : Keeps (clearArray u) := by
  intro arr arr' h hrun
  obtain ⟨l, hl⟩ := h.exists_holds
  rcases Nat.eq_zero_or_pos arr.size with hsize | hsize
  · rw [clearArray_fatal u hsize] at hrun
    cases hrun
  · obtain ⟨arr₁, hclear, h₁, -⟩ := hl.clearArray u hsize
    rw [hclear] at hrun
    cases hrun
    exact h₁.sane

theorem keeps_swapArrayData (u : Unspecified) (idx1 idx2 : ℤ) :
    Keeps fun arr => swapArrayData u arr idx1 idx2 := by
  intro arr arr' h hrun
  unfold swapArrayData at hrun
  obtain ⟨i1, -, hrun⟩ := bind_eq_ok.mp hrun
  obtain ⟨i2, -, hrun⟩ := bind_eq_ok.mp hrun
  obtain ⟨tmp, -, hrun⟩ := bind_eq_ok.mp hrun
  obtain ⟨arr₁, hcopy, hrun⟩ := bind_eq_ok.mp hrun
  obtain ⟨arr₂, hwrite, hrun⟩ := bind_eq_ok.mp hrun
  cases hrun
  have hwritten := (copyWithin_ok hcopy).trans (writeItem_ok hwrite)
  exact (hwritten.sane h).withSorted false

theorem Sane.deleteArrayData_ok {index : ℤ} (h : Sane arr)
    (hrun : deleteArrayData u arr index = .ok arr') (hpos : 0 ≤ arr'.length) : Sane arr' := by
  unfold deleteArrayData at hrun
  obtain ⟨idx, -, hrun⟩ := bind_eq_ok.mp hrun
  obtain ⟨next, -, hrun⟩ := bind_eq_ok.mp hrun
  obtain ⟨tail, -, hrun⟩ := bind_eq_ok.mp hrun
  obtain ⟨arr₁, hcopy, hrun⟩ := bind_eq_ok.mp hrun
  obtain ⟨length, hlength, hrun⟩ := bind_eq_ok.mp hrun
  cases hrun
  have h₁ := (copyWithin_ok hcopy).sane h
  refine ⟨h₁.toFormed.withLength _ _, hpos, ?_⟩
  have hle := h₁.length_le
  have hless := int_eq hlength
  dsimp only
  omega

/-! ## Sorting and searching -/

theorem foldlM_invariant {P : ArrayT → Prop} {step : ArrayT → ℕ → Except ArrayHalt ArrayT}
    (hstep : ∀ i arr arr', P arr → step arr i = .ok arr' → P arr') (l : List ℕ) (h : P arr)
    (hrun : l.foldlM step arr = .ok arr') : P arr' := by
  induction l generalizing arr with
  | nil =>
      cases hrun
      exact h
  | cons i l ih =>
      rw [List.foldlM_cons] at hrun
      obtain ⟨arr₁, hfirst, hrun⟩ := bind_eq_ok.mp hrun
      exact ih (hstep i arr arr₁ h hfirst) hrun

theorem keeps_foldlM {step : ArrayT → ℕ → Except ArrayHalt ArrayT}
    (hstep : ∀ i, Keeps fun arr => step arr i) (l : List ℕ) :
    Keeps fun arr => l.foldlM step arr :=
  fun _ _ h hrun => foldlM_invariant hstep l h hrun

theorem keeps_sortRound (u : Unspecified) (i : ℕ) : Keeps fun arr => sortRound u arr i := by
  intro arr arr' h hrun
  unfold sortRound at hrun
  obtain ⟨left, -, hrun⟩ := bind_eq_ok.mp hrun
  obtain ⟨right, -, hrun⟩ := bind_eq_ok.mp hrun
  split at hrun
  · cases hrun
  · split at hrun
    · exact keeps_swapArrayData u i (i + 1) arr arr' h hrun
    · cases hrun
      exact h

theorem keeps_sortPass (u : Unspecified) (i : ℕ) : Keeps fun arr => sortPass u arr i := by
  intro arr arr' h hrun
  exact keeps_foldlM (keeps_sortRound u) _ arr arr' h hrun

theorem keeps_sortArray (u : Unspecified) : Keeps (sortArray u) := by
  intro arr arr' h hrun
  unfold sortArray at hrun
  obtain ⟨arr₁, hpasses, hrun⟩ := bind_eq_ok.mp hrun
  cases hrun
  exact (keeps_foldlM (keeps_sortPass u) _ arr arr₁ h hpasses).withSorted true

theorem Sane.findArrayIndex_ok {key : List UInt8} {idx : ℤ} (h : Sane arr)
    (hrun : findArrayIndex u arr key = .ok (idx, arr')) : Sane arr' := by
  unfold findArrayIndex at hrun
  split at hrun
  · cases hrun
    exact h
  · dsimp only at hrun
    split at hrun
    · obtain ⟨arr₁, hsame, hrun⟩ := bind_eq_ok.mp hrun
      obtain ⟨found, -, hrun⟩ := bind_eq_ok.mp hrun
      cases hsame
      cases hrun
      exact h
    · obtain ⟨arr₁, hsort, hrun⟩ := bind_eq_ok.mp hrun
      obtain ⟨found, -, hrun⟩ := bind_eq_ok.mp hrun
      cases hrun
      exact keeps_sortArray u arr arr' h hsort

theorem Sane.findArray_ok {key : List UInt8} {pos : Option ℤ} (h : Sane arr)
    (hrun : findArray u arr key = .ok (pos, arr')) : Sane arr' := by
  unfold findArray at hrun
  obtain ⟨⟨idx, arr₁⟩, hfind, hrun⟩ := bind_eq_ok.mp hrun
  have h₁ := h.findArrayIndex_ok hfind
  dsimp only at hrun
  split at hrun
  · obtain ⟨found, -, hrun⟩ := bind_eq_ok.mp hrun
    cases hrun
    exact h₁
  · cases hrun
    exact h₁

theorem Sane.popArray (h : Sane arr) : Sane (ArrayT.popArray arr).2 := by
  have hle := h.length_le
  unfold ArrayT.popArray
  split
  · refine ⟨h.toFormed.withLength _ _, ?_, ?_⟩
    · dsimp only
      omega
    · dsimp only
      omega
  · exact h

end ArrayT

end SimpleVm
