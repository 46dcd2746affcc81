import Mathlib.Data.List.Infix
import Mathlib.Data.List.Induction
import SimpleVm.Common.ArrayChanges

/-!
# Arrays as lists

The abstract arrays are lists of items, all of one size. A run of the abstract
operations, with indices in range and no array inserted into itself, is a run
on the arrays as long as an `int` can hold the capacities and their bytes, and
it is one that overflows as soon as it cannot.
-/

namespace SimpleVm

namespace ArrayT

abbrev Items := List (List UInt8)

/-- A negative index counts from the place behind the last item. -/
def insertPosition (l : Items) (index : ℤ) : Option ℕ :=
  if -(l.length + 1 : ℤ) ≤ index ∧ index ≤ l.length then
    some (if index < 0 then l.length + index + 1 else index).toNat
  else none

def splice (l : Items) (i : ℕ) (new : Items) : Items := l.take i ++ new ++ l.drop i

def exchange (l : Items) (i j : ℕ) : Option Items :=
  match l[i]?, l[j]? with
  | some x, some y => some ((l.set i y).set j x)
  | _, _ => none

/-- One list is changed. -/
def onList (family : List Items) (n : ℕ) (f : Items → Option Items) : Option (List Items) := do
  let l ← family[n]?
  let l ← f l
  some (family.set n l)

/-- The operations on lists; there is no result for a call that they do not have. -/
def performOnLists (size : ℕ) (family : List Items) : Call → Option (List Items)
  | .create n _ => if n = size then some (family ++ [[]]) else none
  | .append n data => onList family n fun l => some (l ++ [itemAt size data])
  | .insert n data index =>
      onList family n fun l => do
        let i ← insertPosition l index.toInt
        some (splice l i [itemAt size data])
  | .insertArray dest src index => do
      let new ← family[src]?
      if src = dest then none
      else
        onList family dest fun l => do
          let i ← insertPosition l index.toInt
          some (splice l i new)
  | .appendArray dest src => do
      let new ← family[src]?
      if src = dest then none else onList family dest fun l => some (l ++ new)
  | .delete n index =>
      onList family n fun l =>
        if 0 ≤ index.toInt ∧ index.toInt < l.length then some (l.eraseIdx index.toInt.toNat)
        else none
  | .swap n idx1 idx2 =>
      onList family n fun l =>
        if 0 ≤ idx1.toInt ∧ 0 ≤ idx2.toInt then exchange l idx1.toInt.toNat idx2.toInt.toNat
        else none
  | .clear n => onList family n fun _ => some []
  | _ => none

def listsAfter (size : ℕ) (calls : List Call) : Option (List Items) :=
  calls.foldlM (performOnLists size) []

/-- A power of two from eight on is enough for `n` items, and an `int` can hold it and its bytes. -/
def HasRoom (size n : ℕ) : Prop :=
  ∃ e, 3 ≤ e ∧ n ≤ 2 ^ e ∧ 2 ^ e < 2 ^ 31 ∧ size * 2 ^ e < 2 ^ 31

/-- There is room for every list that the calls make on the way. -/
def RoomThroughout (size : ℕ) (calls : List Call) : Prop :=
  ∀ earlier, earlier <+: calls → ∀ family, listsAfter size earlier = some family →
    ∀ l ∈ family, HasRoom size l.length

/-! ## Reading -/

/-- What the caller finds at the pointer. -/
def readPointer (u : Unspecified) (arr : ArrayT) :
    Option ℤ → Except ArrayHalt (Option (List UInt8))
  | none => .ok none
  | some pos => do
      let item ← readItem u arr pos
      .ok (some item)

def readIndex (u : Unspecified) (arr : ArrayT) (index : ℤ) :
    Except ArrayHalt (Option (List UInt8)) := do
  let pos ← indexArrayData arr index
  readPointer u arr pos

/-- `k` calls of `iterate_array_data`, each with the mark that the one before it left. -/
def iterateTimes (u : Unspecified) (arr : ArrayT) :
    ℕ → ℤ → Except ArrayHalt (List (Option (List UInt8)))
  | 0, _ => .ok []
  | k + 1, post => do
      let (pos, post) ← iterateArrayData arr post
      let item ← readPointer u arr pos
      let items ← iterateTimes u arr k post
      .ok (item :: items)

/-- What is read of the array is the list `l`. -/
structure ReadsAs (u : Unspecified) (arr : ArrayT) (l : Items) : Prop where
  index : ∀ (i : ℕ) (hi : i < l.length), readIndex u arr i = .ok (some l[i])
  index_back : ∀ (i : ℕ) (hi : i < l.length), readIndex u arr (i - l.length) = .ok (some l[i])
  index_empty : l = [] → ∀ i, readIndex u arr i = .ok none
  iterate : ∀ k, iterateTimes u arr k 0 =
    .ok ((l.take k).map some ++ List.replicate (k - l.length) none)

variable {u : Unspecified} {arr : ArrayT} {l : Items}

theorem Holds.readIndex (h : Holds l arr) (u : Unspecified) {index : ℤ} {i : ℕ}
    (hidx : ArrayT.normalizeReadIndex arr index = .ok (i : ℤ)) (hi : i < l.length) :
    ArrayT.readIndex u arr index = .ok (some l[i]) := by
  rw [ArrayT.readIndex, h.indexArrayData hidx hi, ok_bind, readPointer, h.readItem u hi, ok_bind]

theorem Holds.normalize_back (h : Holds l arr) {i : ℕ} (hi : i < l.length) :
    ArrayT.normalizeReadIndex arr ((i : ℤ) - l.length) = .ok (i : ℤ) := by
  have hlen := h.length_eq
  have htop : (i : ℤ) - l.length ≤ arr.length := by omega
  have hpos : readPosition arr ((i : ℤ) - l.length) = i := by
    rw [readPosition, if_pos (by omega)]
    omega
  have hmin : -2 ^ 31 ≤ (i : ℤ) - l.length := by
    have hle := h.length_le
    have hlt := h.capacity_lt
    omega
  rw [h.normalizeReadIndex hmin htop, hpos]

theorem iterateTimes_succ {k : ℕ} {post post' : ℤ} {pos : Option ℤ} {item : Option (List UInt8)}
    (hstep : iterateArrayData arr post = .ok (pos, post'))
    (hread : readPointer u arr pos = .ok item) :
    iterateTimes u arr (k + 1) post =
      (iterateTimes u arr k post' >>= fun items => .ok (item :: items)) := by
  rw [iterateTimes, hstep, ok_bind]
  dsimp only
  rw [hread, ok_bind]

theorem Holds.iterateTimes (h : Holds l arr) (u : Unspecified) (k : ℕ) {i : ℕ}
    (hi : i ≤ l.length) :
    ArrayT.iterateTimes u arr k i =
      .ok (((l.drop i).take k).map some ++ List.replicate (k - (l.length - i)) none) := by
  induction k generalizing i with
  | zero => simp [ArrayT.iterateTimes]
  | succ k ih =>
      rcases Nat.lt_or_eq_of_le hi with hlt | rfl
      · have hread : readPointer u arr (some (i : ℤ)) = .ok (some l[i]) := by
          rw [readPointer, h.readItem u hlt, ok_bind]
        have hcount : k + 1 - (l.length - i) = k - (l.length - (i + 1)) := by omega
        rw [iterateTimes_succ (h.iterateArrayData hlt) hread, ih hlt, ok_bind, hcount,
          List.drop_eq_getElem_cons hlt, List.take_succ_cons, List.map_cons, List.cons_append]
      · have hread : readPointer u arr none = .ok none := rfl
        rw [iterateTimes_succ h.iterateArrayData_end hread, ih le_rfl, ok_bind, List.drop_length,
          List.take_nil, List.take_nil, List.map_nil, List.nil_append, List.nil_append,
          Nat.sub_self, Nat.sub_zero, Nat.sub_zero, List.replicate_succ]

theorem Holds.readsAs (h : Holds l arr) (u : Unspecified) : ReadsAs u arr l := by
  constructor
  · intro i hi
    exact h.readIndex u (h.normalize_inside hi) hi
  · intro i hi
    exact h.readIndex u (h.normalize_back hi) hi
  · intro hnil i
    have hlen := h.length_eq
    rw [hnil, List.length_nil] at hlen
    have hempty : ¬ 0 < arr.lenArray := by
      rw [lenArray]
      omega
    rw [ArrayT.readIndex, ArrayT.indexArrayData, if_neg hempty]
    rfl
  · intro k
    have htimes := h.iterateTimes u k (Nat.zero_le l.length)
    rw [List.drop_zero, Nat.sub_zero] at htimes
    exact htimes

/-! ## Room -/

theorem HasRoom.mono {size n m : ℕ} (h : HasRoom size n) (hle : m ≤ n) : HasRoom size m := by
  obtain ⟨e, he, hn, hlt, hbytes⟩ := h
  exact ⟨e, he, le_trans hle hn, hlt, hbytes⟩

theorem Holds.hasRoom (h : Holds l arr) : HasRoom arr.size l.length := by
  obtain ⟨d, hd⟩ := h.capacity_pow
  have hge := h.capacity_ge
  have hlt := h.capacity_lt
  have hle := h.length_le
  have hbytes := h.bytes_lt
  rw [hd] at hge hlt hle hbytes
  refine ⟨d, ?_, hle, hlt, hbytes⟩
  by_contra hsmall
  have hpow := Nat.pow_lt_pow_right (a := 2) (by omega) (Nat.lt_of_not_le hsmall)
  omega

/-- Whether an array can grow depends on the length it is to have, not on its capacity. -/
theorem Holds.fits_of_hasRoom (h : Holds l arr) {k : ℕ} (hroom : HasRoom arr.size (l.length + k)) :
    Fits arr k := by
  obtain ⟨e, he, hn, hlt, hbytes⟩ := hroom
  obtain ⟨d, hd⟩ := h.capacity_pow
  have hlen := h.length_eq
  rcases Nat.le_total d e with hde | hed
  · have hpow : arr.capacity * 2 ^ (e - d) = 2 ^ e := by
      rw [hd, ← Nat.pow_add, Nat.add_sub_cancel' hde]
    refine ⟨e - d, ?_, ?_, ?_⟩
    · rw [hpow, hlen]
      exact_mod_cast hn
    · rwa [hpow]
    · rwa [hpow]
  · have hcap : 2 ^ e ≤ arr.capacity := by
      rw [hd]
      exact Nat.pow_le_pow_right Nat.two_pos hed
    have hone : arr.capacity * 2 ^ 0 = arr.capacity := by rw [Nat.pow_zero, Nat.mul_one]
    refine ⟨0, ?_, ?_, ?_⟩
    · rw [hone]
      omega
    · rw [hone]
      exact h.capacity_lt
    · rw [hone]
      exact h.bytes_lt

theorem not_hasRoom_new {size : ℕ} (hbytes : ¬ size * 8 < 2 ^ 31) : ¬ HasRoom size 0 := by
  rintro ⟨e, he, -, -, hlt⟩
  have hpow : 2 ^ 3 ≤ 2 ^ e := Nat.pow_le_pow_right Nat.two_pos he
  have hmul := Nat.mul_le_mul_left size hpow
  omega

/-! ## Every run on lists is a run on arrays -/

/-- The arrays hold those lists, all with items of one size. -/
structure Represents (size : ℕ) (family : List Items) (pool : List ArrayT) : Prop where
  length_eq : pool.length = family.length
  held : ∀ (n : ℕ) (arr : ArrayT) (l : Items), pool[n]? = some arr → family[n]? = some l →
    Holds l arr ∧ arr.size = size

variable {size n : ℕ} {family family' : List Items} {pool : List ArrayT}

theorem Represents.arrayAt (h : Represents size family pool) (hl : family[n]? = some l) :
    ∃ arr, ArrayT.arrayAt pool n = .ok arr ∧ Holds l arr ∧ arr.size = size := by
  have hlt : n < pool.length := by
    rw [h.length_eq]
    exact (List.getElem?_eq_some_iff.mp hl).1
  have hget : pool[n]? = some pool[n] := List.getElem?_eq_getElem hlt
  obtain ⟨hheld, hsize⟩ := h.held n pool[n] l hget hl
  refine ⟨pool[n], ?_, hheld, hsize⟩
  simp only [ArrayT.arrayAt, hget]

theorem Represents.source (h : Represents size family pool) {dest src : ℕ}
    (hl : family[src]? = some l) (hne : ¬ src = dest) :
    ∃ arr, ArrayT.source pool dest src = .ok (fun _ => arr) ∧ Holds l arr ∧ arr.size = size := by
  obtain ⟨arr, harr, hheld, hsize⟩ := h.arrayAt hl
  refine ⟨arr, ?_, hheld, hsize⟩
  rw [ArrayT.source, if_neg hne, harr, ok_bind]

theorem Represents.set (h : Represents size family pool) {l' : Items} {arr' : ArrayT}
    (hheld : Holds l' arr') (hsize : arr'.size = size) :
    Represents size (family.set n l') (pool.set n arr') := by
  constructor
  · rw [List.length_set, List.length_set, h.length_eq]
  · intro m arr k harr hk
    by_cases hm : n = m
    · subst hm
      obtain ⟨hlt, rfl⟩ := List.getElem?_eq_some_iff.mp harr
      obtain ⟨hlt', rfl⟩ := List.getElem?_eq_some_iff.mp hk
      rw [List.getElem_set_self, List.getElem_set_self]
      exact ⟨hheld, hsize⟩
    · rw [List.getElem?_set_ne hm] at harr hk
      exact h.held m arr k harr hk

theorem Represents.create (h : Represents size family pool) (hheld : Holds [] arr)
    (hsize : arr.size = size) : Represents size (family ++ [[]]) (pool ++ [arr]) := by
  constructor
  · rw [List.length_append, List.length_append, h.length_eq, List.length_singleton,
      List.length_singleton]
  · intro m arr' k harr hk
    rcases lt_or_ge m pool.length with hlt | hge
    · rw [List.getElem?_append_left hlt] at harr
      rw [List.getElem?_append_left (h.length_eq ▸ hlt)] at hk
      exact h.held m arr' k harr hk
    · rw [List.getElem?_append_right hge] at harr
      rw [List.getElem?_append_right (h.length_eq ▸ hge), ← h.length_eq] at hk
      have harr' : arr' ∈ [arr] := List.mem_of_getElem? harr
      have hk' : k ∈ [([] : Items)] := List.mem_of_getElem? hk
      rw [List.mem_singleton.mp harr', List.mem_singleton.mp hk']
      exact ⟨hheld, hsize⟩

/-- The call does on the arrays what it does on the lists, or there is no room for one of these
and an `int` overflows. -/
def Simulated (size : ℕ) (family' : List Items) (result : Except ArrayHalt (Answer × List ArrayT)) :
    Prop :=
  (∃ answer pool', result = .ok (answer, pool') ∧ Represents size family' pool') ∨
    (∃ l ∈ family', ¬ HasRoom size l.length) ∧ result = .error .overflow

theorem Represents.change (h : Represents size family pool) {f : Items → Option Items}
    {g : ArrayT → Except ArrayHalt ArrayT} (hlist : onList family n f = some family')
    (hfun : ∀ l l' arr, f l = some l' → Holds l arr → arr.size = size →
      (∃ arr', g arr = .ok arr' ∧ Holds l' arr' ∧ arr'.size = arr.size) ∨
        ¬ HasRoom size l'.length ∧ g arr = .error .overflow) :
    Simulated size family' (ArrayT.change pool n g) := by
  unfold onList at hlist
  obtain ⟨l, hl, hlist⟩ := Option.bind_eq_some_iff.mp hlist
  obtain ⟨l', hl', hlist⟩ := Option.bind_eq_some_iff.mp hlist
  cases hlist
  obtain ⟨arr, harr, hheld, hsize⟩ := h.arrayAt hl
  rw [ArrayT.change, harr, ok_bind]
  rcases hfun l l' arr hl' hheld hsize with ⟨arr', hrun, hheld', hsize'⟩ | ⟨hfull, hrun⟩
  · rw [hrun]
    exact .inl ⟨_, _, rfl, h.set hheld' (hsize'.trans hsize)⟩
  · rw [hrun]
    have hlt : n < family.length := (List.getElem?_eq_some_iff.mp hl).1
    exact .inr ⟨⟨l', List.mem_set hlt l', hfull⟩, rfl⟩

theorem Holds.insertPosition (h : Holds l arr) {index : ℤ} {i : ℕ}
    (hi : ArrayT.insertPosition l index = some i) :
    ArrayT.normalizeWriteIndex arr index = .ok (i : ℤ) ∧ i ≤ l.length := by
  have hlen := h.length_eq
  have hle := h.length_le
  have hlt := h.capacity_lt
  unfold ArrayT.insertPosition at hi
  split at hi
  · rename_i hrange
    obtain ⟨hlow, hhigh⟩ := hrange
    have hpos : writePosition arr index = i := by
      cases hi
      rw [writePosition]
      split <;> omega
    have hmin : -2 ^ 31 ≤ index := by omega
    rw [h.normalizeWriteIndex hmin (by omega), hpos]
    refine ⟨rfl, ?_⟩
    cases hi
    split <;> omega
  · cases hi

/-! ## Each call -/

theorem simulates_append (u : Unspecified) (hpos : 0 < size) (data : ℕ → UInt8) {l' : Items}
    (hl : some (l ++ [itemAt size data]) = some l') (h : Holds l arr) (hsize : arr.size = size) :
    (∃ arr', appendArrayData u arr data = .ok arr' ∧ Holds l' arr' ∧ arr'.size = arr.size) ∨
      ¬ HasRoom size l'.length ∧ appendArrayData u arr data = .error .overflow := by
  cases hl
  subst hsize
  by_cases hfits : Fits arr 1
  · exact .inl (h.appendArrayData u (hfits.grows hpos) data)
  · have hresize : resize u arr 1 = .error .overflow := h.resize_overflow u (n := 1) hfits
    refine .inr ⟨?_, by rw [appendArrayData, hresize, error_bind]⟩
    rw [List.length_append]
    exact fun hroom => hfits (h.fits_of_hasRoom hroom)

theorem length_splice {i : ℕ} (hi : i ≤ l.length) (new : Items) :
    (splice l i new).length = l.length + new.length := by
  rw [splice, List.length_append, List.length_append, List.length_take_of_le hi, List.length_drop]
  omega

theorem simulates_insert (u : Unspecified) (hpos : 0 < size) (data : ℕ → UInt8) {index : ℤ}
    {l' : Items}
    (hl : (do let i ← insertPosition l index; some (splice l i [itemAt size data])) = some l')
    (h : Holds l arr) (hsize : arr.size = size) :
    (∃ arr', insertArrayData u arr data index = .ok arr' ∧ Holds l' arr' ∧
      arr'.size = arr.size) ∨
      ¬ HasRoom size l'.length ∧ insertArrayData u arr data index = .error .overflow := by
  obtain ⟨i, hi, hl⟩ := Option.bind_eq_some_iff.mp hl
  cases hl
  subst hsize
  obtain ⟨hidx, hle⟩ := h.insertPosition hi
  by_cases hfits : Fits arr 1
  · exact .inl (h.insertArrayData u hidx hle (hfits.grows hpos) data)
  · have hresize : resize u arr 1 = .error .overflow := h.resize_overflow u (n := 1) hfits
    refine .inr ⟨?_, by rw [insertArrayData, hidx, ok_bind, hresize, error_bind]⟩
    rw [length_splice hle]
    exact fun hroom => hfits (h.fits_of_hasRoom hroom)

theorem simulates_insertArray (u : Unspecified) (hpos : 0 < size) {index : ℤ} {src : ArrayT}
    {new l' : Items}
    (hl : (do let i ← insertPosition l index; some (splice l i new)) = some l')
    (h : Holds l arr) (hsrc : Holds new src) (hsize : arr.size = size) (hsize' : src.size = size) :
    (∃ arr', insertArray u arr (fun _ => src) index = .ok arr' ∧ Holds l' arr' ∧
      arr'.size = arr.size) ∨
      ¬ HasRoom size l'.length ∧ insertArray u arr (fun _ => src) index = .error .overflow := by
  obtain ⟨i, hi, hl⟩ := Option.bind_eq_some_iff.mp hl
  cases hl
  subst hsize
  obtain ⟨hidx, hle⟩ := h.insertPosition hi
  by_cases hfits : Fits arr new.length
  · exact .inl (h.insertArray hsrc hsize' u hidx hle (hfits.grows hpos))
  · have hresize := h.resize_overflow u hfits
    rw [← hsrc.length_eq] at hresize
    refine .inr ⟨?_, by rw [insertArray, hidx, ok_bind, hresize, error_bind]⟩
    rw [length_splice hle]
    exact fun hroom => hfits (h.fits_of_hasRoom hroom)

theorem simulates_appendArray (u : Unspecified) (hpos : 0 < size) {src : ArrayT} {new : Items}
    (h : Holds l arr) (hsrc : Holds new src) (hsize : arr.size = size) (hsize' : src.size = size) :
    (∃ arr', appendArray u arr (fun _ => src) = .ok arr' ∧ Holds (l ++ new) arr' ∧
      arr'.size = arr.size) ∨
      ¬ HasRoom size (l ++ new).length ∧
        appendArray u arr (fun _ => src) = .error .overflow := by
  subst hsize
  by_cases hfits : Fits arr new.length
  · exact .inl (h.appendArray hsrc hsize' u (hfits.grows hpos))
  · have hresize := h.resize_overflow u hfits
    rw [← hsrc.length_eq] at hresize
    refine .inr ⟨?_, by rw [appendArray, hresize, error_bind]⟩
    rw [List.length_append]
    exact fun hroom => hfits (h.fits_of_hasRoom hroom)

/-- A read past the block is unspecified here, so a full array may lose an item as well. -/
theorem simulates_delete (u : Unspecified) (hpast : u.past.isSome) {index : ℤ} {l' : Items}
    (hl : (if 0 ≤ index ∧ index < l.length then some (l.eraseIdx index.toNat) else none) = some l')
    (h : Holds l arr) :
    ∃ arr', deleteArrayData u arr index = .ok arr' ∧ Holds l' arr' ∧ arr'.size = arr.size := by
  have hlen := h.length_eq
  split at hl
  · rename_i hrange
    cases hl
    have hpos : writePosition arr index = (index.toNat : ℕ) := by
      rw [writePosition, if_neg (by omega)]
      omega
    have hidx : normalizeWriteIndex arr index = .ok (writePosition arr index) :=
      h.normalizeWriteIndex (by omega) (by omega)
    rw [hpos] at hidx
    exact h.deleteArrayData u hidx (by omega) (.inl hpast)
  · cases hl

theorem simulates_swap (u : Unspecified) {idx1 idx2 : ℤ} {l' : Items}
    (hl : (if 0 ≤ idx1 ∧ 0 ≤ idx2 then exchange l idx1.toNat idx2.toNat else none) = some l')
    (h : Holds l arr) :
    ∃ arr', swapArrayData u arr idx1 idx2 = .ok arr' ∧ Holds l' arr' ∧ arr'.size = arr.size := by
  split at hl
  · rename_i hrange
    obtain ⟨i, rfl⟩ := Int.eq_ofNat_of_zero_le hrange.1
    obtain ⟨j, rfl⟩ := Int.eq_ofNat_of_zero_le hrange.2
    rw [Int.toNat_natCast, Int.toNat_natCast] at hl
    unfold exchange at hl
    split at hl
    · rename_i x y hx hy
      cases hl
      obtain ⟨hi, rfl⟩ := List.getElem?_eq_some_iff.mp hx
      obtain ⟨hj, rfl⟩ := List.getElem?_eq_some_iff.mp hy
      exact h.swapArrayData u (h.normalize_inside hi) (h.normalize_inside hj) hi hj
    · cases hl
  · cases hl

theorem Represents.perform (h : Represents size family pool) (u : Unspecified)
    (hpast : u.past.isSome) (hpos : 0 < size) {call : Call} (hcall : performOnLists size family call = some family') :
    Simulated size family' (ArrayT.perform u pool call) := by
  cases call with
  | create n comp =>
      simp only [performOnLists] at hcall
      split at hcall
      · rename_i hsize
        cases hcall
        subst hsize
        rcases createArray_cases n comp with ⟨arr, hrun, hheld, hsize⟩ | ⟨hbytes, hrun⟩
        · refine .inl ⟨.done, pool ++ [arr], ?_, h.create hheld hsize⟩
          rw [ArrayT.perform, hrun, ok_bind]
        · refine .inr ⟨⟨[], ?_, not_hasRoom_new hbytes⟩, by rw [ArrayT.perform, hrun, error_bind]⟩
          exact List.mem_append_right family (List.mem_singleton_self [])
      · cases hcall
  | append n data =>
      apply h.change hcall
      intro l l' arr hl hheld hsize
      exact simulates_append u hpos data hl hheld hsize
  | insert n data index =>
      apply h.change hcall
      intro l l' arr hl hheld hsize
      exact simulates_insert u hpos data hl hheld hsize
  | insertArray dest src index =>
      obtain ⟨new, hnew, hcall⟩ := Option.bind_eq_some_iff.mp hcall
      split at hcall
      · cases hcall
      · rename_i hne
        obtain ⟨arr, hsource, hheld, hsize⟩ := h.source hnew hne
        rw [ArrayT.perform, hsource, ok_bind]
        apply h.change hcall
        intro l l' arr' hl hheld' hsize'
        exact simulates_insertArray u hpos hl hheld' hheld hsize' hsize
  | appendArray dest src =>
      obtain ⟨new, hnew, hcall⟩ := Option.bind_eq_some_iff.mp hcall
      split at hcall
      · cases hcall
      · rename_i hne
        obtain ⟨arr, hsource, hheld, hsize⟩ := h.source hnew hne
        rw [ArrayT.perform, hsource, ok_bind]
        apply h.change hcall
        intro l l' arr' hl hheld' hsize'
        cases hl
        exact simulates_appendArray u hpos hheld' hheld hsize' hsize
  | delete n index =>
      apply h.change hcall
      intro l l' arr hl hheld _
      exact .inl (simulates_delete u hpast hl hheld)
  | swap n idx1 idx2 =>
      apply h.change hcall
      intro l l' arr hl hheld _
      exact .inl (simulates_swap u hl hheld)
  | clear n =>
      apply h.change hcall
      intro l l' arr hl hheld hsize
      cases hl
      exact .inl (hheld.clearArray u (hsize.symm ▸ hpos))
  | sort n => cases hcall
  | find n key => cases hcall
  | iterate n post => cases hcall
  | index n index => cases hcall
  | push n data => cases hcall
  | pop n => cases hcall
  | peek n => cases hcall

/-! ## Every run -/

theorem listsAfter_append (size : ℕ) (calls : List Call) (call : Call) :
    listsAfter size (calls ++ [call]) =
      (listsAfter size calls).bind fun family => performOnLists size family call := by
  rw [listsAfter, List.foldlM_append]
  congr 1
  funext family
  rw [List.foldlM_cons]
  cases performOnLists size family call <;> rfl

theorem Represents.room (h : Represents size family pool) :
    ∀ l ∈ family, HasRoom size l.length := by
  intro l hmem
  obtain ⟨n, hn⟩ := List.mem_iff_getElem?.mp hmem
  obtain ⟨arr, -, hheld, hsize⟩ := h.arrayAt hn
  exact hsize ▸ hheld.hasRoom

/-- The arrays follow the lists up to the first call after which one of these has no room. -/
theorem represents_after (u : Unspecified) (hpast : u.past.isSome) (hpos : 0 < size)
    (calls : List Call) {family : List Items} (hcalls : listsAfter size calls = some family) :
    (RoomThroughout size calls ∧ ∃ pool, after u calls = .ok pool ∧ Represents size family pool) ∨
      ¬ RoomThroughout size calls ∧ after u calls = .error .overflow := by
  induction calls using List.reverseRecOn generalizing family with
  | nil =>
      cases hcalls
      refine .inl ⟨?_, [], rfl, rfl, nofun⟩
      intro earlier hprefix family hearlier
      rw [List.prefix_nil.mp hprefix] at hearlier
      cases hearlier
      exact nofun
  | append_singleton calls call ih =>
      rw [listsAfter_append] at hcalls
      obtain ⟨family₀, hcalls₀, hcall⟩ := Option.bind_eq_some_iff.mp hcalls
      rw [after_append]
      rcases ih hcalls₀ with ⟨hroom, pool, hrun, h⟩ | ⟨hfull, hrun⟩
      · rw [hrun, ok_bind, step]
        rcases h.perform u hpast hpos hcall with ⟨answer, pool', hrun', h'⟩ | ⟨⟨l, hl, hnone⟩, hrun'⟩
        · refine .inl ⟨?_, pool', by rw [hrun', ok_bind], h'⟩
          intro earlier hprefix family' hearlier
          rcases List.prefix_concat_iff.mp hprefix with rfl | hbefore
          · rw [listsAfter_append, hcalls₀, Option.bind_some, hcall] at hearlier
            cases hearlier
            exact h'.room
          · exact hroom earlier hbefore family' hearlier
        · refine .inr ⟨?_, by rw [hrun', error_bind]⟩
          intro hall
          refine hnone (hall _ List.prefix_rfl family ?_ l hl)
          rw [listsAfter_append, hcalls₀, Option.bind_some, hcall]
      · refine .inr ⟨?_, by rw [hrun, error_bind]⟩
        intro hall
        exact hfull fun earlier hbefore =>
          hall earlier (hbefore.trans (List.prefix_append calls [call]))

/-- While there is room the arrays read as the lists that the same calls make, and without it an
`int` overflows. -/
theorem arrays_are_lists (fresh past : ArrayT → ℕ → UInt8) {size : ℕ} (hpos : 0 < size)
    (calls : List Call) {family : List Items} (hcalls : listsAfter size calls = some family) :
    (RoomThroughout size calls → ∃ pool, after ⟨fresh, some past⟩ calls = .ok pool ∧
      pool.length = family.length ∧
        ∀ (n : ℕ) (arr : ArrayT) (l : Items), pool[n]? = some arr → family[n]? = some l →
          ReadsAs ⟨fresh, some past⟩ arr l) ∧
      (¬ RoomThroughout size calls → after ⟨fresh, some past⟩ calls = .error .overflow) := by
  rcases represents_after ⟨fresh, some past⟩ rfl hpos calls hcalls with
    ⟨hroom, pool, hrun, h⟩ | ⟨hfull, hrun⟩
  · refine ⟨fun _ => ⟨pool, hrun, h.length_eq, ?_⟩, fun hfull => (hfull hroom).elim⟩
    intro n arr l harr hl
    exact (h.held n arr l harr hl).1.readsAs _
  · exact ⟨fun hroom => (hfull hroom).elim, fun _ => hrun⟩

/-- It is enough that no list is ever longer than some length for which there is room. -/
theorem roomThroughout_of_le {k : ℕ} (hroom : HasRoom size k) {calls : List Call}
    (hle : (calls.inits.all fun earlier => (listsAfter size earlier).all fun family =>
      family.all fun l => l.length ≤ k) = true) : RoomThroughout size calls := by
  intro earlier hprefix family hearlier l hl
  have hall := List.all_eq_true.mp hle earlier ((List.mem_inits _ _).mpr hprefix)
  rw [hearlier, Option.all_some] at hall
  exact hroom.mono (of_decide_eq_true (List.all_eq_true.mp hall l hl))

/-- The ninth item moves the first array to a larger block, and the other array grows twice. -/
def growingCalls : List Call :=
  .create 1 none :: [1, 2, 3, 4, 5, 6, 7, 8].map (fun b => .append 0 fun _ => b) ++
    [.insert 0 (fun _ => 9) (-2), .delete 0 0, .swap 0 0 1, .create 1 none, .append 1 fun _ => 5,
      .appendArray 1 0, .insertArray 1 0 (-3), .clear 0, .append 0 fun _ => 4]

theorem arrays_are_lists_growingCalls :
    ∃ pool, after ⟨fun _ _ => 0, some fun _ _ => 0⟩ growingCalls = .ok pool ∧ pool.length = 2 ∧
      ∀ (n : ℕ) (arr : ArrayT) (l : Items), pool[n]? = some arr →
        [[[4]], [[5], [3], [2], [4], [5], [6], [7], [3], [2], [4], [5], [6], [7], [9], [8], [9],
          [8]]][n]? = some l → ReadsAs ⟨fun _ _ => 0, some fun _ _ => 0⟩ arr l := by
  have hlists : listsAfter 1 growingCalls = some [[[4]], [[5], [3], [2], [4], [5], [6], [7], [3],
      [2], [4], [5], [6], [7], [9], [8], [9], [8]]] := by decide
  have hroom : RoomThroughout 1 growingCalls :=
    roomThroughout_of_le (k := 32) ⟨5, by decide⟩ (by decide)
  exact (arrays_are_lists _ _ Nat.one_pos growingCalls hlists).1 hroom

end ArrayT

end SimpleVm
