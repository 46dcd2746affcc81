import SimpleVm.Common.Errors
import SimpleVm.Lib.Block

/-!
# Pointer lists

An array of pointers that doubles when it is full. `none` is `NULL`, and what
a reallocated block holds behind the old pointers is up to the allocator.
Appending works up to the largest capacity that an `int` can hold.
-/

namespace SimpleVm

universe u

structure PointerList (α : Type u) where
  buffer : List (Option α)
  len : ℕ
  cap : ℕ
  isSorted : Bool
  deriving DecidableEq

namespace PointerList

variable {α : Type u}

def createPtrList : PointerList α where
  buffer := List.replicate 8 none
  len := 0
  cap := 8
  isSorted := false

/-- A negative index is meant to count from the end, but is subtracted from the length. -/
def normalizeIndex (lst : PointerList α) (idx : ℤ) : ℤ :=
  if 0 ≤ idx ∧ idx < lst.len then idx
  else if idx < 0 ∧ toInt (-idx) < lst.len then toInt (lst.len - idx)
  else -1

/-- A capacity doubled past the range of `int` asks for more bytes than there can be. -/
def makeRoom (fresh : ℕ → Option α) (lst : PointerList α) : Except Halt (PointerList α) :=
  if lst.cap < lst.len + 1 then
    if 2 ^ 30 ≤ lst.cap then .error .fatal
    else .ok { lst with cap := 2 * lst.cap, buffer := Block.grow fresh lst.buffer (2 * lst.cap) }
  else .ok lst

def appendPtrList (fresh : ℕ → Option α) (lst : PointerList α) (ptr : Option α) :
    Except Halt (PointerList α) := do
  let lst ← makeRoom fresh lst
  match Block.store? lst.buffer lst.len [ptr] with
  | some buffer => .ok { lst with buffer := buffer, len := lst.len + 1, isSorted := false }
  | none => .error .invalidAccess

def indexPtrList (lst : PointerList α) (index : ℤ) : Except Halt (Option α) :=
  let idx := lst.normalizeIndex index
  if 0 ≤ idx then
    match lst.buffer[idx.toNat]? with
    | some ptr => .ok ptr
    | none => .error .invalidAccess
  else .ok none

def lenPtrList (lst : PointerList α) : ℤ := lst.len

def pushPtrList (fresh : ℕ → Option α) (lst : PointerList α) (ptr : Option α) :
    Except Halt (PointerList α) := do
  let lst ← lst.appendPtrList fresh ptr
  .ok { lst with isSorted := false }

def popPtrList (lst : PointerList α) : Except Halt (Option α × PointerList α) :=
  if 0 < lst.len then
    match lst.buffer[lst.len - 1]? with
    | some ptr => .ok (ptr, { lst with len := lst.len - 1 })
    | none => .error .invalidAccess
  else .ok (none, lst)

def peekPtrList (lst : PointerList α) : Except Halt (Option α) :=
  if 0 < lst.len then
    match lst.buffer[lst.len - 1]? with
    | some ptr => .ok ptr
    | none => .error .invalidAccess
  else .ok none

/-- The pointer at the mark, and the mark behind it. -/
def iteratePtrList (lst : Option (PointerList α)) (post : ℤ) : Except Halt (Option α × ℤ) :=
  match lst with
  | none => .ok (none, post)
  | some lst =>
      if 0 ≤ post ∧ post < lst.len then
        match lst.buffer[post.toNat]? with
        | some ptr => .ok (ptr, toInt (post + 1))
        | none => .error .invalidAccess
      else .ok (none, post)

structure Holds (elems : List (Option α)) (lst : PointerList α) : Prop where
  length_buffer : lst.buffer.length = lst.cap
  elems_start : elems <+: lst.buffer
  len_eq : lst.len = elems.length
  len_le : lst.len ≤ lst.cap
  cap_pow : ∃ e ≤ 30, lst.cap = 2 ^ e

theorem holds_create : Holds [] (createPtrList : PointerList α) where
  length_buffer := rfl
  elems_start := List.nil_prefix
  len_eq := rfl
  len_le := Nat.zero_le 8
  cap_pow := ⟨3, by decide, rfl⟩

variable {elems : List (Option α)} {lst : PointerList α}

theorem Holds.cap_le (h : Holds elems lst) : lst.cap ≤ 2 ^ 30 := by
  obtain ⟨e, he, hcap⟩ := h.cap_pow
  rw [hcap]
  exact Nat.pow_le_pow_right Nat.two_pos he

theorem Holds.makeRoom (h : Holds elems lst) (hroom : elems.length < 2 ^ 30)
    (fresh : ℕ → Option α) :
    ∃ lst', lst.makeRoom fresh = .ok lst' ∧ Holds elems lst' ∧ lst'.len < lst'.cap := by
  have hlen := h.len_eq
  rw [PointerList.makeRoom]
  split
  · rename_i hfull
    have hcap : ¬ 2 ^ 30 ≤ lst.cap := by
      have hle := h.len_le
      omega
    obtain ⟨e, he, hpow⟩ := h.cap_pow
    have hpos : 0 < 2 ^ e := Nat.two_pow_pos e
    have he' : e < 30 := by
      apply (Nat.pow_lt_pow_iff_right (a := 2) (by decide)).mp
      omega
    rw [if_neg hcap]
    refine ⟨_, rfl, ⟨?_, ?_, hlen, ?_, e + 1, he', ?_⟩, ?_⟩
    · exact Block.length_grow _ _ _
    · exact Block.prefix_grow h.elems_start (by have hbuf := h.length_buffer; omega)
    · have hle := h.len_le
      dsimp only
      omega
    · dsimp only
      rw [hpow, Nat.pow_succ']
    · have hle := h.len_le
      dsimp only
      omega
  · exact ⟨lst, rfl, h, by omega⟩

theorem Holds.appendPtrList (h : Holds elems lst) (hroom : elems.length < 2 ^ 30)
    (fresh : ℕ → Option α) (ptr : Option α) :
    ∃ lst', lst.appendPtrList fresh ptr = .ok lst' ∧ Holds (elems ++ [ptr]) lst' := by
  obtain ⟨room, hmake, hheld, hlt⟩ := h.makeRoom hroom fresh
  have hbuf := hheld.length_buffer
  have hlen := hheld.len_eq
  have hspace : elems.length + [ptr].length ≤ room.buffer.length := by
    rw [List.length_singleton]
    omega
  obtain ⟨buffer, hstore, hsame, hstarts⟩ :=
    Block.exists_store_behind [ptr] hheld.elems_start hspace
  refine ⟨{ room with buffer := buffer, len := room.len + 1, isSorted := false }, ?_, ?_⟩
  · rw [PointerList.appendPtrList, hmake, ok_bind, hlen, hstore]
  · refine ⟨hsame.trans hbuf, hstarts, ?_, hlt, hheld.cap_pow⟩
    rw [List.length_append, List.length_singleton, ← hlen]

theorem Holds.appendPtrList_full (h : Holds elems lst) (hfull : 2 ^ 30 ≤ elems.length)
    (fresh : ℕ → Option α) (ptr : Option α) :
    lst.appendPtrList fresh ptr = .error .fatal := by
  have hlen := h.len_eq
  have hle := h.len_le
  have hcap := h.cap_le
  rw [PointerList.appendPtrList, PointerList.makeRoom, if_pos (by omega), if_pos (by omega)]
  rfl

theorem Holds.room_of_ok (h : Holds elems lst) {fresh : ℕ → Option α} {ptr : Option α}
    {lst' : PointerList α} (hrun : lst.appendPtrList fresh ptr = .ok lst') :
    elems.length < 2 ^ 30 := by
  by_contra hfull
  rw [h.appendPtrList_full (not_lt.mp hfull)] at hrun
  cases hrun

theorem Holds.lenPtrList (h : Holds elems lst) : lst.lenPtrList = elems.length :=
  congrArg Int.ofNat h.len_eq

theorem Holds.getElem?_buffer (h : Holds elems lst) {i : ℕ} (hi : i < elems.length) :
    lst.buffer[i]? = some elems[i] := by
  obtain ⟨rest, hrest⟩ := h.elems_start
  rw [← hrest, List.getElem?_append_left hi, List.getElem?_eq_getElem hi]

theorem Holds.indexPtrList (h : Holds elems lst) {i : ℕ} (hi : i < elems.length) :
    lst.indexPtrList i = .ok elems[i] := by
  have hnorm : lst.normalizeIndex i = i := by
    rw [normalizeIndex, if_pos ⟨Int.natCast_nonneg i, by rw [h.len_eq]; exact_mod_cast hi⟩]
  have hget := h.getElem?_buffer hi
  rw [PointerList.indexPtrList]
  simp only [hnorm, Int.natCast_nonneg, if_true, Int.toNat_natCast, hget]

theorem Holds.indexPtrList_outside (h : Holds elems lst) {i : ℤ} (hi : (elems.length : ℤ) ≤ i) :
    lst.indexPtrList i = .ok none := by
  have hlen := h.len_eq
  have hnorm : lst.normalizeIndex i = -1 := by
    rw [normalizeIndex, if_neg (by omega), if_neg (by omega)]
  rw [PointerList.indexPtrList]
  simp only [hnorm]
  rfl

/-- Appending already leaves the list unsorted. -/
theorem pushPtrList_eq (fresh : ℕ → Option α) (lst : PointerList α) (ptr : Option α) :
    lst.pushPtrList fresh ptr = lst.appendPtrList fresh ptr := by
  rw [pushPtrList, appendPtrList]
  cases lst.makeRoom fresh with
  | error e => rfl
  | ok room =>
      simp only [ok_bind]
      cases Block.store? room.buffer room.len [ptr] with
      | none => rfl
      | some buffer => rfl

theorem Holds.getElem?_last (h : Holds elems lst) (hne : elems ≠ []) :
    lst.buffer[lst.len - 1]? = some (elems.getLast hne) := by
  have hlt : elems.length - 1 < elems.length :=
    Nat.sub_lt (List.length_pos_of_ne_nil hne) Nat.one_pos
  rw [h.len_eq, h.getElem?_buffer hlt, List.getLast_eq_getElem]

theorem Holds.len_pos_iff (h : Holds elems lst) : 0 < lst.len ↔ elems ≠ [] := by
  rw [h.len_eq, List.length_pos_iff]

/-- What is popped stays in the buffer until it is written over. -/
theorem Holds.popPtrList (h : Holds elems lst) :
    ∃ lst', lst.popPtrList = .ok (elems.getLast?.join, lst') ∧ Holds elems.dropLast lst' := by
  rw [PointerList.popPtrList]
  by_cases hne : elems = []
  · rw [if_neg (by rw [h.len_pos_iff]; exact not_not.mpr hne)]
    subst hne
    exact ⟨lst, rfl, h⟩
  · rw [if_pos (h.len_pos_iff.mpr hne), h.getElem?_last hne, List.getLast?_eq_some_getLast hne]
    refine ⟨{ lst with len := lst.len - 1 }, rfl, h.length_buffer, ?_, ?_, ?_, h.cap_pow⟩
    · exact (List.dropLast_prefix elems).trans h.elems_start
    · rw [List.length_dropLast]
      exact congrArg (· - 1) h.len_eq
    · exact Nat.le_trans (Nat.sub_le lst.len 1) h.len_le

theorem Holds.peekPtrList (h : Holds elems lst) :
    lst.peekPtrList = .ok elems.getLast?.join := by
  rw [PointerList.peekPtrList]
  by_cases hne : elems = []
  · rw [if_neg (by rw [h.len_pos_iff]; exact not_not.mpr hne)]
    subst hne
    rfl
  · rw [if_pos (h.len_pos_iff.mpr hne), h.getElem?_last hne, List.getLast?_eq_some_getLast hne]
    rfl

theorem Holds.iteratePtrList (h : Holds elems lst) {i : ℕ} (hi : i < elems.length) :
    PointerList.iteratePtrList (some lst) i = .ok (elems[i], (i + 1 : ℕ)) := by
  have hle := h.len_le
  have hcap := h.cap_le
  have hlen := h.len_eq
  have hnext : toInt ((i : ℤ) + 1) = (i + 1 : ℕ) := by
    rw [toInt_of_lt (by omega) (by omega)]
    rfl
  simp only [PointerList.iteratePtrList, hnext]
  rw [if_pos ⟨Int.natCast_nonneg i, by omega⟩, Int.toNat_natCast, h.getElem?_buffer hi]

theorem Holds.iteratePtrList_end (h : Holds elems lst) :
    PointerList.iteratePtrList (some lst) elems.length = .ok (none, elems.length) := by
  have hlen := h.len_eq
  simp only [PointerList.iteratePtrList]
  rw [if_neg (by omega)]

end PointerList

end SimpleVm
