import SimpleVm.Common.ArrayBounds
import SimpleVm.Common.ArrayList

/-!
# Taking an inserted array out again

A deletion reads its index as an insertion does, from the place behind the
last item, and so it finds another item with every item that is gone. With an
index in front of that place the inserted items are not the ones that go.
-/

namespace SimpleVm

namespace ArrayT

/-- So many deletions, all at the same index. -/
def deleteTimes (u : Unspecified) (index : ℤ) : ℕ → ArrayT → Except ArrayHalt ArrayT
  | 0, arr => .ok arr
  | n + 1, arr => do
      let arr ← deleteArrayData u arr index
      deleteTimes u index n arr

/-- The source is measured before it is inserted. -/
def insertThenDelete (u : Unspecified) (dest : ArrayT) (src : ArrayT → ArrayT) (index : ℤ) :
    Except ArrayHalt ArrayT := do
  let n := (src dest).lenArray.toNat
  let dest ← insertArray u dest src index
  deleteTimes u index n dest

/-- The source is another array that holds `new`, or the destination itself. -/
inductive SourceHolds (dest : ArrayT) (l : Items) : (ArrayT → ArrayT) → Items → Prop
  | other {src : ArrayT} {new : Items} (h : Holds new src) (hsize : src.size = dest.size) :
      SourceHolds dest l (fun _ => src) new
  | self : SourceHolds dest l id l

def Restores (u : Unspecified) (dest : ArrayT) (l : Items) (src : ArrayT → ArrayT) (index : ℤ) :
    Prop :=
  ∃ dest', insertThenDelete u dest src index = .ok dest' ∧ Holds l dest'

/-- The array can grow for the items, and in front of the end the first new item is like the one it displaces. -/
def RestoresWhen (dest : ArrayT) (l new : Items) (index : ℤ) : Prop :=
  Grows dest new.length ∧ (new = [] ∨ 0 ≤ index ∨
    index = -1 ∧ dest.size * (l.length + new.length + 1) < 2 ^ 31 ∨
    index < -1 ∧ new.head? = l[(l.length + index + 1).toNat]?)

variable {u : Unspecified} {arr dest : ArrayT} {l new : Items} {src : ArrayT → ArrayT}

/-! ## Inserting -/

/-- An array that makes room for itself still begins with its items. -/
theorem Holds.gapped_self (h : Holds l arr) {i : ℕ} (hi : i ≤ l.length)
    (hroom : l.length + l.length ≤ arr.capacity) :
    Holds l { arr with buffer := gapped arr l i l.length } := by
  have hformed := h.toFormed.withBuffer (h.length_gapped hi hroom)
  refine ⟨hformed, h.length_eq, h.length_le, h.sizes, ?_⟩
  have hshort : l.flatten.length ≤ arr.size * (i + l.length) := by
    rw [length_flatten h.sizes]
    exact Nat.mul_le_mul_left arr.size (Nat.le_add_left _ _)
  have hfirst : l.flatten <+: arr.buffer.take (arr.size * (i + l.length)) :=
    List.prefix_take_iff.mpr ⟨h.items_start, hshort⟩
  have hgap : gapped arr l i l.length = arr.buffer.take (arr.size * (i + l.length)) ++
      ((l.drop i).flatten ++
        arr.buffer.drop (arr.size * (i + l.length) + (l.drop i).flatten.length)) := by
    rw [gapped, Block.overwrite, List.append_assoc]
  dsimp only
  rw [hgap]
  exact hfirst.trans (List.prefix_append _ _)

theorem Holds.insertArray_self (h : Holds l dest) (u : Unspecified) {index : ℤ} {i : ℕ}
    (hidx : ArrayT.normalizeWriteIndex dest index = .ok (i : ℤ)) (hi : i ≤ l.length)
    (hgrows : Grows dest l.length) :
    ∃ dest', ArrayT.insertArray u dest id index = .ok dest' ∧ Holds (splice l i l) dest' ∧
      dest'.size = dest.size := by
  obtain ⟨dest₁, hresize, h₁, hgrown, hroom, hlength⟩ := h.resize_room u hgrows
  have hself := h₁.gapped_self hi hroom
  have hoff := hself.toFormed.byteOffset (i := i) (by change i ≤ dest₁.capacity; omega)
  have hinside : dest₁.size * i + l.flatten.length ≤ (gapped dest₁ l i l.length).length := by
    rw [h₁.length_gapped hi hroom, h₁.length_buffer, length_flatten h₁.sizes, ← Nat.mul_add]
    exact Nat.mul_le_mul_left dest₁.size (by omega)
  have hbehind : int ((i : ℤ) + dest₁.length) = .ok ((i + l.length : ℕ) : ℤ) := by
    have hpos := h₁.int_position (i := i + l.length) (by omega)
    rw [h₁.length_eq]
    exact hpos
  rw [← h.length_eq] at hresize
  rw [← h₁.length_eq] at hlength
  refine ⟨_, ?_, h₁.fillGap hi h₁.sizes hroom, hgrown.size_eq⟩
  simp only [ArrayT.insertArray, hidx, id, hresize, ok_bind]
  rw [hbehind, ok_bind, h₁.tailLength hi, ok_bind, h₁.openGap u hi hroom, ok_bind, hoff, ok_bind,
    byteOffset_zero, ok_bind, hself.tailLength_zero, ok_bind, hself.load_all u, ok_bind,
    store_inside hinside, ok_bind, hlength, ok_bind, h₁.length_eq]

theorem SourceHolds.length_eq (hsrc : SourceHolds dest l src new) (h : Holds l dest) :
    (src dest).lenArray.toNat = new.length := by
  cases hsrc with
  | other hnew _ => rw [lenArray, hnew.length_eq, Int.toNat_natCast]
  | self => rw [id, lenArray, h.length_eq, Int.toNat_natCast]

theorem SourceHolds.insertArray (hsrc : SourceHolds dest l src new) (h : Holds l dest)
    (u : Unspecified) {index : ℤ} {i : ℕ}
    (hidx : ArrayT.normalizeWriteIndex dest index = .ok (i : ℤ)) (hi : i ≤ l.length)
    (hgrows : Grows dest new.length) :
    ∃ dest', ArrayT.insertArray u dest src index = .ok dest' ∧ Holds (splice l i new) dest' ∧
      dest'.size = dest.size := by
  cases hsrc with
  | other hnew hsize => exact h.insertArray hnew hsize u hidx hi hgrows
  | self => exact h.insertArray_self u hidx hi hgrows

theorem SourceHolds.insertArray_error (hsrc : SourceHolds dest l src new) (h : Holds l dest)
    (u : Unspecified) {index : ℤ} {i : ℕ}
    (hidx : ArrayT.normalizeWriteIndex dest index = .ok (i : ℤ))
    (hnot : ¬ Grows dest new.length) : ∃ e, ArrayT.insertArray u dest src index = .error e := by
  obtain ⟨e, hresize⟩ := h.resize_error u hnot
  have hlength : (src dest).length = new.length := by
    cases hsrc with
    | other hnew _ => exact hnew.length_eq
    | self => exact h.length_eq
  refine ⟨e, ?_⟩
  simp only [ArrayT.insertArray, hidx, hlength, hresize, ok_bind, error_bind]

/-! ## Deleting -/

theorem Holds.delete_at {a b : Items} {x : List UInt8} (h : Holds (a ++ x :: b) arr)
    (u : Unspecified) (hpast : u.past.isSome) {index : ℤ} (hmin : -2 ^ 31 ≤ index)
    (hle : index ≤ arr.length) (hpos : writePosition arr index = a.length) :
    ∃ arr', ArrayT.deleteArrayData u arr index = .ok arr' ∧ Holds (a ++ b) arr' ∧
      arr'.size = arr.size := by
  have hidx := h.normalizeWriteIndex hmin hle
  rw [hpos] at hidx
  have hlt : a.length < (a ++ x :: b).length := by
    rw [List.length_append, List.length_cons]
    omega
  have herase : (a ++ x :: b).eraseIdx a.length = a ++ b := by
    rw [List.eraseIdx_append_of_length_le le_rfl, Nat.sub_self]
    rfl
  obtain ⟨arr', hrun, hheld, hsize⟩ := h.deleteArrayData u hidx hlt (.inl hpast)
  rw [herase] at hheld
  exact ⟨arr', hrun, hheld, hsize⟩

/-- From a fixed place the items go one by one from the first on. -/
theorem Holds.deleteTimes_front {a b : Items} (h : Holds (a ++ new ++ b) arr) (u : Unspecified)
    (hpast : u.past.isSome) :
    ∃ arr', deleteTimes u a.length new.length arr = .ok arr' ∧ Holds (a ++ b) arr' := by
  induction new generalizing arr with
  | nil =>
      rw [List.append_nil] at h
      exact ⟨arr, rfl, h⟩
  | cons x new ih =>
      rw [List.append_assoc, List.cons_append] at h
      have hlen := h.length_eq
      rw [List.length_append] at hlen
      have hpos : writePosition arr a.length = a.length := by
        rw [writePosition, if_neg (by omega)]
      obtain ⟨arr₁, hrun, h₁, -⟩ := h.delete_at u hpast (by omega) (by omega) hpos
      rw [← List.append_assoc] at h₁
      obtain ⟨arr', hrest, hheld⟩ := ih h₁
      refine ⟨arr', ?_, hheld⟩
      rw [List.length_cons, deleteTimes, hrun, ok_bind, hrest]

/-- Counted from the end the items in front of `b` go one by one from the last on. -/
theorem Holds.deleteTimes_back {a b : Items} (h : Holds (a ++ new ++ b) arr) (u : Unspecified)
    (hpast : u.past.isSome) :
    ∃ arr', deleteTimes u (-(b.length + 2)) new.length arr = .ok arr' ∧ Holds (a ++ b) arr' := by
  induction new using List.reverseRecOn generalizing arr with
  | nil =>
      rw [List.append_nil] at h
      exact ⟨arr, rfl, h⟩
  | append_singleton new x ih =>
      have hlen := h.length_eq
      have hlast := h.length_le
      have hcap := h.capacity_lt
      rw [← List.append_assoc, List.append_assoc, List.singleton_append] at h
      simp only [List.length_append, List.length_singleton] at hlen hlast
      have hpos : writePosition arr (-(b.length + 2)) = (a ++ new).length := by
        rw [writePosition, if_pos (by omega), List.length_append]
        omega
      obtain ⟨arr₁, hrun, h₁, -⟩ := h.delete_at u hpast (by omega) (by omega) hpos
      obtain ⟨arr', hrest, hheld⟩ := ih h₁
      refine ⟨arr', ?_, hheld⟩
      rw [List.length_append, List.length_singleton, deleteTimes, hrun, ok_bind, hrest]

theorem Holds.deleteArrayData_end (h : Holds l arr) (u : Unspecified) :
    ArrayT.deleteArrayData u arr (-1) =
      (int (arr.size * (arr.length + 1)) >>= fun _ =>
        .ok { arr with length := arr.length - 1, isSorted := false }) := by
  apply h.sane.deleteArrayData_end
  rfl

/-- At the end the last items go, as long as the offset behind them is an `int`. -/
theorem Holds.deleteTimes_end (h : Holds (l ++ new) arr) (u : Unspecified)
    (hbytes : arr.size * (l.length + new.length + 1) < 2 ^ 31) :
    ∃ arr', deleteTimes u (-1) new.length arr = .ok arr' ∧ Holds l arr' := by
  induction new using List.reverseRecOn generalizing arr with
  | nil =>
      rw [List.append_nil] at h
      exact ⟨arr, rfl, h⟩
  | append_singleton new x ih =>
      have hlen := h.length_eq
      rw [← List.append_assoc] at h
      rw [List.length_append, List.length_singleton] at hbytes ⊢
      simp only [List.length_append, List.length_singleton] at hlen
      have hoff : (arr.size : ℤ) * (arr.length + 1) =
          (arr.size * (l.length + (new.length + 1) + 1) : ℕ) := by
        rw [hlen]
        norm_cast
      have hshorter : arr.size * (l.length + new.length + 1) < 2 ^ 31 :=
        lt_of_le_of_lt (Nat.mul_le_mul_left _ (by omega)) hbytes
      obtain ⟨arr', hrest, hheld⟩ := ih (h.dropLast.withSorted false) hshorter
      refine ⟨arr', ?_, hheld⟩
      rw [deleteTimes, h.deleteArrayData_end u, hoff, int_natCast hbytes, ok_bind, ok_bind, hrest]

theorem Holds.deleteTimes_overflow (h : Holds (l ++ new) arr) (u : Unspecified) (hnew : new ≠ [])
    (hbytes : ¬ arr.size * (l.length + new.length + 1) < 2 ^ 31) :
    deleteTimes u (-1) new.length arr = .error .overflow := by
  obtain ⟨n, hn⟩ := Nat.exists_eq_succ_of_ne_zero fun hzero =>
    hnew (List.length_eq_zero_iff.mp hzero)
  have hlen := h.length_eq
  rw [List.length_append] at hlen
  have hoff : (arr.size : ℤ) * (arr.length + 1) =
      (arr.size * (l.length + new.length + 1) : ℕ) := by
    rw [hlen]
    norm_cast
  have hover : int (arr.size * (arr.length + 1)) = .error .overflow := by
    rw [hoff]
    exact if_neg (by omega)
  rw [hn, deleteTimes, h.deleteArrayData_end u, hover]
  rfl

/-! ## Both -/

/-- An array holds one list only. -/
theorem Holds.unique {l' : Items} (h : Holds l arr) (h' : Holds l' arr) : l = l' := by
  have hlength : l.length = l'.length := by
    have hlen := h.length_eq
    have hlen' := h'.length_eq
    omega
  have hsizes : l.map List.length = l'.map List.length := by
    rw [List.map_eq_replicate_iff.mpr h.sizes, List.map_eq_replicate_iff.mpr h'.sizes, hlength]
  have hbytes : l.flatten.length = l'.flatten.length := by
    rw [length_flatten h.sizes, length_flatten h'.sizes, hlength]
  apply List.eq_iff_flatten_eq.mpr
  refine ⟨?_, hsizes⟩
  have hprefix := List.prefix_of_prefix_length_le h.items_start h'.items_start (Nat.le_of_eq hbytes)
  exact hprefix.eq_of_length hbytes

theorem Holds.exists_writePosition (h : Holds l dest) {index : ℤ}
    (hlow : -(l.length + 1 : ℤ) ≤ index) (hhigh : index ≤ l.length) :
    ∃ i : ℕ, i ≤ l.length ∧ ArrayT.normalizeWriteIndex dest index = .ok (i : ℤ) := by
  have hlen := h.length_eq
  have hle := h.length_le
  have hcap := h.capacity_le
  rw [h.normalizeWriteIndex (by omega) (by omega), writePosition]
  split
  · exact ⟨(dest.length + index + 1).toNat, by omega, congrArg Except.ok (by omega)⟩
  · exact ⟨index.toNat, by omega, congrArg Except.ok (by omega)⟩

theorem restores_of_run {dest₁ dest₂ : ArrayT} {index : ℤ} {l' : Items}
    (hsrc : SourceHolds dest l src new) (h : Holds l dest)
    (hinsert : insertArray u dest src index = .ok dest₁)
    (hdelete : deleteTimes u index new.length dest₁ = .ok dest₂) (hheld : Holds l' dest₂) :
    Restores u dest l src index ↔ l = l' := by
  have hrun : insertThenDelete u dest src index = .ok dest₂ := by
    simp only [insertThenDelete, hsrc.length_eq h, hinsert, hdelete, ok_bind]
  constructor
  · rintro ⟨dest', hrun', hheld'⟩
    rw [hrun] at hrun'
    cases hrun'
    exact hheld'.unique hheld
  · rintro rfl
    exact ⟨dest₂, hrun, hheld⟩

/-- In front of the end one item of the destination goes for the first new one. -/
theorem SourceHolds.restores_before_iff (hsrc : SourceHolds dest l src new) (h : Holds l dest)
    (hpast : u.past.isSome) (hgrows : Grows dest new.length) (hne : new ≠ []) {index : ℤ}
    (hlow : -(l.length + 1 : ℤ) ≤ index) (hneg : index < -1) :
    Restores u dest l src index ↔ new.head? = l[(l.length + index + 1).toNat]? := by
  obtain ⟨y, more, rfl⟩ := List.exists_cons_of_ne_nil hne
  obtain ⟨i, hi⟩ := Int.eq_ofNat_of_zero_le (a := l.length + index + 1) (by omega)
  have hlt : i < l.length := by omega
  obtain ⟨a, x, b, hsplit, ha⟩ : ∃ a x b, l = a ++ x :: b ∧ a.length = i :=
    ⟨l.take i, l[i], l.drop (i + 1), by
      rw [← List.drop_eq_getElem_cons hlt, List.take_append_drop],
      List.length_take_of_le (Nat.le_of_lt hlt)⟩
  have hcount : l.length = a.length + (b.length + 1) := by
    rw [hsplit, List.length_append, List.length_cons]
  have hlen := h.length_eq
  have hle := h.length_le
  have hcap := h.capacity_lt
  have hidx : ArrayT.normalizeWriteIndex dest index = .ok (writePosition dest index) :=
    h.normalizeWriteIndex (by omega) (by omega)
  have hpos : writePosition dest index = i := by
    rw [writePosition, if_pos (by omega)]
    omega
  rw [hpos] at hidx
  obtain ⟨dest₁, hinsert, h₁, -⟩ := hsrc.insertArray h u hidx (Nat.le_of_lt hlt) hgrows
  have hmid : splice l i (y :: more) = (a ++ y :: more) ++ x :: b := by
    rw [splice, hsplit, ← ha, List.take_left, List.drop_left]
  rw [hmid] at h₁
  have hlen₁ := h₁.length_eq
  rw [List.length_append, List.length_append, List.length_cons, List.length_cons] at hlen₁
  -- the first item that goes is the one that the new items displaced
  have hpos₁ : writePosition dest₁ index = (a ++ y :: more).length := by
    rw [writePosition, if_pos (by omega), List.length_append, List.length_cons]
    omega
  obtain ⟨dest₂, hfirst, h₂, -⟩ := h₁.delete_at u hpast (by omega) (by omega) hpos₁
  have hkept : a ++ y :: more ++ b = (a ++ [y]) ++ more ++ b := by
    rw [List.append_assoc a [y], List.singleton_append]
  rw [hkept] at h₂
  obtain ⟨dest₃, hrest, h₃⟩ := h₂.deleteTimes_back u hpast
  have hindex : index = -(b.length + 2) := by omega
  have hdelete : deleteTimes u index (y :: more).length dest₁ = .ok dest₃ := by
    rw [List.length_cons, deleteTimes, hfirst, ok_bind, hindex, hrest]
  rw [restores_of_run hsrc h hinsert hdelete h₃, hi, hsplit, ← ha]
  simp [eq_comm]

theorem SourceHolds.restores_end_iff (hsrc : SourceHolds dest l src new) (h : Holds l dest)
    (hgrows : Grows dest new.length) (hne : new ≠ []) :
    Restores u dest l src (-1) ↔ dest.size * (l.length + new.length + 1) < 2 ^ 31 := by
  have hidx : normalizeWriteIndex dest (-1) = .ok ((l.length : ℕ) : ℤ) := by
    rw [← h.length_eq]
    rfl
  obtain ⟨dest₁, hinsert, h₁, hsize⟩ := hsrc.insertArray h u hidx le_rfl hgrows
  rw [splice, List.take_length, List.drop_length, List.append_nil] at h₁
  by_cases hbytes : dest.size * (l.length + new.length + 1) < 2 ^ 31
  · obtain ⟨dest₂, hdelete, h₂⟩ := h₁.deleteTimes_end u (hsize ▸ hbytes)
    exact iff_of_true ((restores_of_run hsrc h hinsert hdelete h₂).mpr rfl) hbytes
  · refine iff_of_false ?_ hbytes
    rintro ⟨dest', hrun, -⟩
    have hover := h₁.deleteTimes_overflow u hne (hsize.symm ▸ hbytes)
    simp only [insertThenDelete, hsrc.length_eq h, hinsert, hover, ok_bind] at hrun
    cases hrun

theorem SourceHolds.restores_inside (hsrc : SourceHolds dest l src new) (h : Holds l dest)
    (hpast : u.past.isSome) (hgrows : Grows dest new.length) {i : ℕ} (hi : i ≤ l.length) :
    Restores u dest l src i := by
  have hlen := h.length_eq
  have hidx : ArrayT.normalizeWriteIndex dest i = .ok (writePosition dest i) :=
    h.normalizeWriteIndex (by omega) (by omega)
  rw [writePosition, if_neg (by omega)] at hidx
  obtain ⟨dest₁, hinsert, h₁, -⟩ := hsrc.insertArray h u hidx hi hgrows
  obtain ⟨dest₂, hdelete, h₂⟩ := Holds.deleteTimes_front h₁ u hpast
  rw [List.length_take_of_le hi] at hdelete
  exact (restores_of_run hsrc h hinsert hdelete h₂).mpr (List.take_append_drop i l).symm

/-- Without a deletion there is nothing to go wrong. -/
theorem SourceHolds.restores_nothing (hsrc : SourceHolds dest l src []) (h : Holds l dest)
    (hgrows : Grows dest 0) {index : ℤ} (hlow : -(l.length + 1 : ℤ) ≤ index)
    (hhigh : index ≤ l.length) : Restores u dest l src index := by
  obtain ⟨i, hi, hidx⟩ := h.exists_writePosition hlow hhigh
  obtain ⟨dest₁, hinsert, h₁, -⟩ := hsrc.insertArray h u hidx hi hgrows
  rw [splice, List.append_nil, List.take_append_drop] at h₁
  exact (restores_of_run hsrc h hinsert rfl h₁).mpr rfl

/-- When as many deletions as there are items in the source bring the destination back. -/
theorem restores_iff (fresh past : ArrayT → ℕ → UInt8) (h : Holds l dest)
    (hsrc : SourceHolds dest l src new) {index : ℤ} (hlow : -(l.length + 1 : ℤ) ≤ index)
    (hhigh : index ≤ l.length) :
    Restores ⟨fresh, some past⟩ dest l src index ↔ RestoresWhen dest l new index := by
  by_cases hgrows : Grows dest new.length
  · rw [RestoresWhen, and_iff_right hgrows]
    by_cases hne : new = []
    · subst hne
      exact iff_of_true (hsrc.restores_nothing h hgrows hlow hhigh) (.inl rfl)
    · rw [or_iff_right hne]
      rcases Int.lt_trichotomy index (-1) with hneg | rfl | hpos
      · rw [hsrc.restores_before_iff h rfl hgrows hne hlow hneg]
        constructor
        · intro hhead
          exact .inr (.inr ⟨hneg, hhead⟩)
        · rintro (hge | ⟨hend, -⟩ | ⟨-, hhead⟩)
          · omega
          · omega
          · exact hhead
      · rw [hsrc.restores_end_iff h hgrows hne]
        constructor
        · intro hbytes
          exact .inr (.inl ⟨rfl, hbytes⟩)
        · rintro (hge | ⟨-, hbytes⟩ | ⟨hlt, -⟩)
          · omega
          · exact hbytes
          · omega
      · obtain ⟨i, rfl⟩ := Int.eq_ofNat_of_zero_le (a := index) (by omega)
        exact iff_of_true (hsrc.restores_inside h rfl hgrows (by omega)) (.inl (by omega))
  · refine iff_of_false ?_ fun hwhen => hgrows hwhen.1
    rintro ⟨dest', hrun, -⟩
    obtain ⟨i, -, hidx⟩ := h.exists_writePosition hlow hhigh
    obtain ⟨e, herror⟩ := hsrc.insertArray_error h ⟨fresh, some past⟩ hidx hgrows
    rw [insertThenDelete, herror] at hrun
    cases hrun

/-- An array of one item of one byte. -/
def single (b : UInt8) : ArrayT := ⟨b :: List.replicate 7 0, 8, 1, 1, none, false⟩

theorem holds_single (b : UInt8) : Holds [[b]] (single b) := by
  have hcap : 8 < 2 ^ 31 := by omega
  have hbytes : 1 * 8 < 2 ^ 31 := by omega
  have hroom : 1 ≤ 8 := by omega
  refine ⟨⟨rfl, le_rfl, ⟨3, rfl⟩, hcap, hbytes⟩, rfl, hroom, ?_, List.replicate 7 0, rfl⟩
  intro x hx
  rw [List.mem_singleton.mp hx]
  rfl

theorem restores_single_iff :
    Restores ⟨fun _ _ => 0, some fun _ _ => 0⟩ (single 1) [[1]] (fun _ => single 2) (-2) ↔
      RestoresWhen (single 1) [[1]] [[2]] (-2) :=
  restores_iff _ _ (holds_single 1) (.other (holds_single 2) rfl) (by decide) (by decide)

/-- At the index -2 the one item of the destination goes, and the inserted one stays. -/
theorem not_restores_before :
    ¬ ∀ (dest : ArrayT) (l : Items) (src : ArrayT → ArrayT) (new : Items) (index : ℤ),
      Holds l dest → SourceHolds dest l src new → -(l.length + 1 : ℤ) ≤ index →
      index ≤ l.length → Restores ⟨fun _ _ => 0, some fun _ _ => 0⟩ dest l src index := by
  intro hall
  obtain ⟨dest', hrun, hheld⟩ :=
    hall _ _ _ _ (-2) (holds_single 1) (.other (holds_single 2) rfl) (by decide) (by decide)
  have hend : insertThenDelete ⟨fun _ _ => 0, some fun _ _ => 0⟩ (single 1)
      (fun _ => single 2) (-2) = .ok (single 2) := rfl
  rw [hend] at hrun
  cases hrun
  exact absurd hheld.items_start (by decide)

end ArrayT

end SimpleVm
