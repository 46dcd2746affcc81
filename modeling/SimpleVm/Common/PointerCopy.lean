import SimpleVm.Common.PointerIndex
import SimpleVm.Common.PointerSort

/-!
# Copies of pointer lists

The copy is made by appending, so it has the pointers of the list and not its
mark of being sorted. What else a query can tell is what lies behind the list
in the buffer, where an index from the end is looked for.
-/

namespace SimpleVm

universe u

namespace PointerList

open Sorting

variable {α : Type u}

/-- One round of the loop of `copy_ptr_list`. -/
def copyRound (fresh : ℕ → ℕ → Option α) (lst ptr : PointerList α) (i : ℕ) :
    Except Halt (PointerList α) :=
  match lst.buffer[i]? with
  | some item => ptr.appendPtrList (fresh ptr.cap) item
  | none => .error .invalidAccess

/-- `fresh cap` is what a block that has grown from `cap` cells holds behind them. -/
def copyPtrList (fresh : ℕ → ℕ → Option α) (lst : PointerList α) : Except Halt (PointerList α) :=
  (List.range lst.len).foldlM (copyRound fresh lst) createPtrList

/-- Both give the same answer; what is read outside a block is none. -/
def SameAnswer {β : Type*} (result result' : Except Halt β) : Prop :=
  ∃ answer, result = .ok answer ∧ result' = .ok answer

/-- What can be asked of a list has the same answer from both. -/
structure AnswersAlike (lst copy : PointerList α) : Prop where
  len : copy.lenPtrList = lst.lenPtrList
  index : ∀ index : Int32,
    SameAnswer (copy.indexPtrList index.toInt) (lst.indexPtrList index.toInt)
  iterate : ∀ post : Int32,
    SameAnswer (iteratePtrList (some copy) post.toInt) (iteratePtrList (some lst) post.toInt)
  peek : SameAnswer copy.peekPtrList lst.peekPtrList
  find : ∀ key compFunc, SameAnswer (copy.findPtrList key compFunc) (lst.findPtrList key compFunc)
  findIdx : ∀ key compFunc,
    SameAnswer (copy.findPtrListIdx key compFunc) (lst.findPtrListIdx key compFunc)

/-- The capacity of a new list after so many pointers. -/
def capacityAfter : ℕ → ℕ
  | 0 => 8
  | n + 1 => if capacityAfter n < n + 1 then 2 * capacityAfter n else capacityAfter n

/-- The cell of a new list behind its `n` pointers: clear at first, and never in a grown block. -/
def unusedCell (fresh : ℕ → ℕ → Option α) (n j : ℕ) : Option (Option α) :=
  if j < capacityAfter n then
    some (if n ≤ 8 then none else fresh (capacityAfter n / 2) j)
  else none

variable {fresh : ℕ → ℕ → Option α} {elems : List (Option α)} {lst copy ptr : PointerList α}

/-! ## What the copy is -/

/-- A new list with the pointers `elems`. -/
structure CopyOf (fresh : ℕ → ℕ → Option α) (elems : List (Option α)) (ptr : PointerList α) :
    Prop where
  holds : Holds elems ptr
  cap_eq : ptr.cap = capacityAfter elems.length
  unused : ∀ j, elems.length ≤ j → ptr.buffer[j]? = unusedCell fresh elems.length j
  unsorted : ptr.isSorted = false

theorem capacityAfter_small {n : ℕ} (hn : n ≤ 8) : capacityAfter n = 8 := by
  induction n with
  | zero => rfl
  | succ n ih => rw [capacityAfter, ih (by omega), if_neg (by omega)]

theorem eight_le_capacityAfter (n : ℕ) : 8 ≤ capacityAfter n := by
  induction n with
  | zero => exact Nat.le_refl 8
  | succ n ih =>
      rw [capacityAfter]
      split <;> omega

theorem copyOf_create (fresh : ℕ → ℕ → Option α) : CopyOf fresh [] createPtrList := by
  refine ⟨holds_create, rfl, ?_, rfl⟩
  intro j _
  have hcap : capacityAfter ([] : List (Option α)).length = 8 := rfl
  rw [unusedCell, hcap]
  by_cases hj : j < 8
  · rw [if_pos hj]
    exact List.getElem?_replicate_of_lt hj
  · rw [if_neg hj]
    exact List.getElem?_eq_none (by rw [createPtrList, List.length_replicate]; omega)

theorem unusedCell_grown (fresh : ℕ → ℕ → Option α) {n j : ℕ} (hfull : capacityAfter n = n)
    (hge : 8 ≤ n) :
    unusedCell fresh (n + 1) j = if j < 2 * n then some (fresh n j) else none := by
  have hcap : capacityAfter (n + 1) = 2 * n := by
    rw [capacityAfter, hfull, if_pos (Nat.lt_succ_self n)]
  have hlarge : ¬ n + 1 ≤ 8 := by omega
  rw [unusedCell, hcap, if_neg hlarge, Nat.mul_div_cancel_left n Nat.two_pos]

theorem unusedCell_same (fresh : ℕ → ℕ → Option α) {n : ℕ} (j : ℕ)
    (hroom : n + 1 ≤ capacityAfter n) : unusedCell fresh (n + 1) j = unusedCell fresh n j := by
  have hcap : capacityAfter (n + 1) = capacityAfter n := by
    rw [capacityAfter, if_neg (by omega)]
  have hsmall : n + 1 ≤ 8 ↔ n ≤ 8 := by
    constructor
    · omega
    · intro hle
      rw [capacityAfter_small hle] at hroom
      exact hroom
  simp only [unusedCell, hcap, hsmall]

/-- What appending does to the cells behind the new pointer. -/
theorem Holds.cells_behind {more : ℕ → Option α} {item : Option α} (h : Holds elems lst)
    (hrun : lst.appendPtrList more item = .ok ptr) :
    (lst.cap = elems.length ∧ ptr.cap = 2 * lst.cap ∧ ∀ j, elems.length < j →
      ptr.buffer[j]? = if j < 2 * lst.cap then some (more j) else none) ∨
    (elems.length < lst.cap ∧ ptr.cap = lst.cap ∧ ∀ j, elems.length < j →
      ptr.buffer[j]? = lst.buffer[j]?) := by
  have hlen := h.len_eq
  have hle := h.len_le
  have hbuf := h.length_buffer
  unfold PointerList.appendPtrList at hrun
  obtain ⟨room, hroom, hrun⟩ := bind_eq_ok.mp hrun
  split at hrun
  · next buffer hstore =>
      obtain ⟨hinside, hbuffer⟩ : room.len + [item].length ≤ room.buffer.length ∧
          Block.overwrite room.buffer room.len [item] = buffer := by
        unfold Block.store? at hstore
        split at hstore
        · next hinside => exact ⟨hinside, Option.some_inj.mp hstore⟩
        · cases hstore
      cases hrun
      have hkept : ∀ j, room.len < j → buffer[j]? = room.buffer[j]? := by
        intro j hj
        rw [← hbuffer]
        exact Block.getElem?_overwrite hinside hj
      unfold PointerList.makeRoom at hroom
      split at hroom
      · next hfull =>
          split at hroom
          · cases hroom
          · cases hroom
            refine .inl ⟨by omega, rfl, ?_⟩
            intro j hj
            have hmore : lst.buffer.length ≤ 2 * lst.cap := by omega
            have hbehind : lst.buffer.length ≤ j := by omega
            exact (hkept j (hlen ▸ hj)).trans (Block.getElem?_grow more hmore hbehind)
      · next hnot =>
          cases hroom
          refine .inr ⟨by omega, rfl, ?_⟩
          intro j hj
          exact hkept j (hlen ▸ hj)
  · cases hrun

theorem CopyOf.append (h : CopyOf fresh elems ptr) (item : Option α)
    (hlen : elems.length < 2 ^ 30) :
    ∃ ptr', ptr.appendPtrList (fresh ptr.cap) item = .ok ptr' ∧
      CopyOf fresh (elems ++ [item]) ptr' := by
  obtain ⟨ptr', hrun, hheld⟩ := h.holds.appendPtrList hlen (fresh ptr.cap) item
  have hcap := h.cap_eq
  have hlength : (elems ++ [item]).length = elems.length + 1 := by
    rw [List.length_append, List.length_singleton]
  refine ⟨ptr', hrun, hheld, ?_, ?_, appendPtrList_unsorted hrun⟩
  · rw [hlength, capacityAfter, ← hcap]
    rcases h.holds.cells_behind hrun with ⟨hfull, hgrown, -⟩ | ⟨hroom, hsame, -⟩
    · rw [if_pos (by omega), hgrown]
    · rw [if_neg (by omega), hsame]
  · intro j hj
    rw [hlength] at hj ⊢
    rcases h.holds.cells_behind hrun with ⟨hfull, -, hcells⟩ | ⟨hroom, -, hcells⟩
    · have hge : 8 ≤ elems.length := by
        rw [← hfull, hcap]
        exact eight_le_capacityAfter _
      rw [hcells j hj, unusedCell_grown fresh (hcap.symm.trans hfull) hge, hfull]
    · rw [hcells j hj, h.unused j (by omega), unusedCell_same fresh j (by omega)]

/-- Every list can be copied, as the copy needs no more room than the list has. -/
theorem Holds.copyPtrList (h : Holds elems lst) (fresh : ℕ → ℕ → Option α) :
    ∃ copy, PointerList.copyPtrList fresh lst = .ok copy ∧ CopyOf fresh elems copy := by
  have hmax : elems.length ≤ 2 ^ 30 := by
    have hlt := h.len_lt
    omega
  have hloop : ∀ n ≤ elems.length, ∃ ptr,
      (List.range n).foldlM (copyRound fresh lst) createPtrList = .ok ptr ∧
        CopyOf fresh (elems.take n) ptr := by
    intro n hn
    induction n with
    | zero => exact ⟨_, rfl, copyOf_create fresh⟩
    | succ n ih =>
        obtain ⟨ptr, hrun, hptr⟩ := ih (Nat.le_of_succ_le hn)
        have hlt : n < elems.length := hn
        obtain ⟨ptr', happend, hptr'⟩ := hptr.append elems[n] (by rw [List.length_take]; omega)
        refine ⟨ptr', ?_, ?_⟩
        · rw [List.range_succ, List.foldlM_append, hrun, ok_bind, List.foldlM_cons, copyRound,
            h.getElem?_buffer hlt]
          dsimp only
          rw [happend, ok_bind]
          rfl
        · rw [List.take_succ_eq_append_getElem hlt]
          exact hptr'
  obtain ⟨copy, hrun, hcopy⟩ := hloop elems.length le_rfl
  rw [List.take_length] at hcopy
  rw [PointerList.copyPtrList, h.len_eq]
  exact ⟨copy, hrun, hcopy⟩

/-! ## What a query can tell -/

theorem Holds.iterate_same {lst' : PointerList α} (h : Holds elems lst) (h' : Holds elems lst')
    (post : ℤ) :
    SameAnswer (PointerList.iteratePtrList (some lst') post)
      (PointerList.iteratePtrList (some lst) post) := by
  have hlen := h.len_eq
  have hlen' := h'.len_eq
  by_cases hin : 0 ≤ post ∧ post < elems.length
  · obtain ⟨i, rfl⟩ := Int.eq_ofNat_of_zero_le hin.1
    have hlt : i < elems.length := by omega
    exact ⟨_, h'.iteratePtrList hlt, h.iteratePtrList hlt⟩
  · refine ⟨(none, post), ?_, ?_⟩
    · simp only [PointerList.iteratePtrList, hlen']
      exact if_neg hin
    · simp only [PointerList.iteratePtrList, hlen]
      exact if_neg hin

theorem Holds.indexPtrList_back (h : Holds elems lst) {index : ℤ} (hneg : index < 0)
    (hgt : -(elems.length : ℤ) < index) :
    lst.indexPtrList index =
      match lst.buffer[(elems.length - index).toNat]? with
      | some ptr => .ok ptr
      | none => .error .invalidAccess := by
  have hpos : 0 ≤ (elems.length : ℤ) - index := by omega
  simp only [PointerList.indexPtrList, h.normalize_back hneg hgt]
  exact if_pos hpos

/-- The cells behind two lists of the same pointers, as far as an index from the end reads. -/
def CellsAgree (n : ℕ) (cell cell' : ℕ → Option (Option α)) : Prop :=
  ∀ j, n < j → j < 2 * n → ∃ ptr, cell j = some ptr ∧ cell' j = some ptr

/-- Two lists of the same pointers give the same at each index as far as their cells agree. -/
theorem Holds.index_same_iff {lst' : PointerList α} (h : Holds elems lst) (h' : Holds elems lst') :
    (∀ index : Int32, SameAnswer (lst'.indexPtrList index.toInt) (lst.indexPtrList index.toInt)) ↔
      CellsAgree elems.length (fun j => lst'.buffer[j]?) fun j => lst.buffer[j]? := by
  have hmax := h.len_lt
  constructor
  · intro hall j hj hlt
    have hidx : (Int32.ofInt (elems.length - j)).toInt = elems.length - j :=
      Int32.toInt_ofInt_of_le (by omega) (by omega)
    obtain ⟨ptr, hcopy, hlist⟩ := hall (Int32.ofInt (elems.length - j))
    have hcell : ((elems.length : ℤ) - (elems.length - j)).toNat = j := by omega
    rw [hidx, h'.indexPtrList_back (by omega) (by omega), hcell] at hcopy
    rw [hidx, h.indexPtrList_back (by omega) (by omega), hcell] at hlist
    refine ⟨ptr, ?_, ?_⟩
    · split at hcopy
      · next hcell' => exact hcell'.trans (congrArg some (Except.ok.inj hcopy))
      · cases hcopy
    · split at hlist
      · next hcell' => exact hcell'.trans (congrArg some (Except.ok.inj hlist))
      · cases hlist
  · intro hcells index
    have hmin := index.le_toInt
    rcases Int.lt_or_le index.toInt 0 with hneg | hpos
    · by_cases hle : index.toInt ≤ -(elems.length : ℤ)
      · exact ⟨none, indexPtrList_of_neg (h'.normalize_small hmin hneg hle),
          indexPtrList_of_neg (h.normalize_small hmin hneg hle)⟩
      · have hgt := Int.not_le.mp hle
        obtain ⟨ptr, hcopy, hlist⟩ :=
          hcells ((elems.length : ℤ) - index.toInt).toNat (by omega) (by omega)
        dsimp only at hcopy hlist
        refine ⟨ptr, ?_, ?_⟩
        · rw [h'.indexPtrList_back hneg hgt, hcopy]
        · rw [h.indexPtrList_back hneg hgt, hlist]
    · obtain ⟨i, hi⟩ := Int.eq_ofNat_of_zero_le hpos
      rw [hi]
      rcases Nat.lt_or_ge i elems.length with hlt | hge
      · exact ⟨_, h'.indexPtrList hlt, h.indexPtrList hlt⟩
      · exact ⟨none, h'.indexPtrList_outside (by omega), h.indexPtrList_outside (by omega)⟩

theorem findPtrListIdx_unsorted (hmark : lst.isSorted = false) (key : Option α)
    (compFunc : Option α → Option α → ℤ) : lst.findPtrListIdx key compFunc = .ok (-1) := by
  rw [findPtrListIdx, hmark]
  rfl

/-- With a comparator that holds everything for equal the first place looked at is the answer. -/
theorem Holds.findPtrListIdx_sorted (h : Holds elems lst) (hmark : lst.isSorted = true)
    (hne : elems ≠ []) (key : Option α) :
    ∃ idx, 0 ≤ idx ∧ lst.findPtrListIdx key (fun _ _ => 0) = .ok idx := by
  have hpos := List.length_pos_of_ne_nil hne
  have hmid : valueAt (fun _ _ => 0) key elems (0 + (elems.length - 1 - 0) / 2) = 0 := by
    rw [valueAt]
    split <;> rfl
  refine ⟨0 + (elems.length - 1 - 0) / 2, by omega, ?_⟩
  rw [PointerList.findPtrListIdx, if_pos hmark, h.len_eq,
    h.search key _ _ (Int.le_refl 0) (by omega), bisect, if_pos (by omega)]
  dsimp only
  rw [if_pos hmid]

theorem Holds.findPtrListIdx_nil (h : Holds [] lst) (key : Option α)
    (compFunc : Option α → Option α → ℤ) : lst.findPtrListIdx key compFunc = .ok (-1) := by
  unfold PointerList.findPtrListIdx
  split
  · rw [h.len_eq]
    rfl
  · rfl

/-- The list is not sorted or has nothing, and the cells behind it are there and as those of a new
list, which has them too. -/
def CopiesAlike (fresh : ℕ → ℕ → Option α) (elems : List (Option α)) (lst : PointerList α) :
    Prop :=
  (lst.isSorted = false ∨ elems = []) ∧
    CellsAgree elems.length (unusedCell fresh elems.length) fun j => lst.buffer[j]?

theorem CopyOf.index_same_iff (hcopy : CopyOf fresh elems copy) (h : Holds elems lst) :
    (∀ index : Int32, SameAnswer (copy.indexPtrList index.toInt) (lst.indexPtrList index.toInt)) ↔
      CellsAgree elems.length (unusedCell fresh elems.length) fun j => lst.buffer[j]? := by
  rw [h.index_same_iff hcopy.holds]
  refine forall_congr' fun j => imp_congr_right fun hj => ?_
  simp only [hcopy.unused j (Nat.le_of_lt hj)]

theorem CopyOf.copiesAlike (hcopy : CopyOf fresh elems copy) (h : Holds elems lst)
    (halike : AnswersAlike lst copy) : CopiesAlike fresh elems lst := by
  refine ⟨?_, (hcopy.index_same_iff h).mp halike.index⟩
  by_contra hnot
  obtain ⟨hmark, hne⟩ := not_or.mp hnot
  obtain ⟨idx, hidx, hfind⟩ := h.findPtrListIdx_sorted (eq_true_of_ne_false hmark) hne none
  obtain ⟨answer, hcopied, hfound⟩ := halike.findIdx none fun _ _ => 0
  rw [findPtrListIdx_unsorted hcopy.unsorted] at hcopied
  rw [hfind] at hfound
  cases hcopied
  cases hfound
  omega

theorem CopyOf.answersAlike (hcopy : CopyOf fresh elems copy) (h : Holds elems lst)
    (hwhen : CopiesAlike fresh elems lst) : AnswersAlike lst copy := by
  obtain ⟨hmark, hcells⟩ := hwhen
  have hnotfound := findPtrListIdx_unsorted hcopy.unsorted
  have hnone : ∀ key compFunc, lst.findPtrListIdx key compFunc = .ok (-1) := by
    intro key compFunc
    rcases hmark with hmark | rfl
    · exact findPtrListIdx_unsorted hmark key compFunc
    · exact h.findPtrListIdx_nil key compFunc
  refine ⟨?_, (hcopy.index_same_iff h).mpr hcells, ?_, ?_, ?_, ?_⟩
  · rw [h.lenPtrList, hcopy.holds.lenPtrList]
  · intro post
    exact h.iterate_same hcopy.holds post.toInt
  · exact ⟨_, hcopy.holds.peekPtrList, h.peekPtrList⟩
  · intro key compFunc
    have hneg : ¬ (0 : ℤ) ≤ -1 := by decide
    refine ⟨none, ?_, ?_⟩
    · simp only [findPtrList, hnotfound, if_neg hneg]
    · simp only [findPtrList, hnone, if_neg hneg]
  · intro key compFunc
    exact ⟨-1, hnotfound key compFunc, hnone key compFunc⟩

/-- When a copy answers every query as the list does. -/
theorem copy_answers_alike_iff (fresh : ℕ → ℕ → Option α) (h : Holds elems lst) :
    (∃ copy, copyPtrList fresh lst = .ok copy ∧ AnswersAlike lst copy) ↔
      CopiesAlike fresh elems lst := by
  obtain ⟨copy, hrun, hcopy⟩ := h.copyPtrList fresh
  constructor
  · rintro ⟨copy', hrun', halike⟩
    rw [hrun] at hrun'
    cases hrun'
    exact hcopy.copiesAlike h halike
  · intro hwhen
    exact ⟨copy, hrun, hcopy.answersAlike h hwhen⟩

theorem copy_of_two_answers_alike_iff :
    (∃ copy, copyPtrList (fun _ _ => none) two = .ok copy ∧ AnswersAlike two copy) ↔
      CopiesAlike (fun _ _ => none) [some 1, some 2] two :=
  copy_answers_alike_iff _ holds_two

def appendNumbers (l : List ℕ) : Except Halt (PointerList ℕ) :=
  l.foldlM (fun lst ptr => lst.appendPtrList (fun _ => none) (some ptr)) createPtrList

/-- The one pointer of a sorted list is not found in its copy. -/
theorem not_copy_answers_alike_sorted :
    ∃ lst : PointerList ℕ,
      (do
        let lst ← appendNumbers [1]
        lst.sortPtrList compNumbers) = .ok lst ∧
      ¬ ∃ copy, copyPtrList (fun _ _ => none) lst = .ok copy ∧ AnswersAlike lst copy := by
  refine ⟨⟨some 1 :: List.replicate 7 none, 1, 8, true⟩, rfl, ?_⟩
  rintro ⟨copy, hrun, halike⟩
  obtain ⟨answer, hcopied, hfound⟩ := halike.findIdx (some 1) compNumbers
  cases hrun
  have hsame : (.ok (-1) : Except Halt ℤ) = .ok 0 := hcopied.trans hfound.symm
  cases hsame

-- of five pointers the third from the end is looked for behind both blocks
example : ∃ lst copy, appendNumbers [1, 2, 3, 4, 5] = .ok lst ∧
    copyPtrList (fun _ _ => none) lst = .ok copy ∧
    lst.indexPtrList (-3) = .error .invalidAccess ∧
    copy.indexPtrList (-3) = .error .invalidAccess :=
  ⟨_, _, rfl, rfl, rfl, rfl⟩

end PointerList

end SimpleVm
