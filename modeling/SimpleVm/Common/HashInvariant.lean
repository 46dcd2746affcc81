import Mathlib.Data.List.Dedup
import SimpleVm.Common.HashProbe

/-!
# The invariants of a hash table

Every table is sound: the capacity is a power of two and the counter, which
stays below it, is at least the number of live buckets. So one bucket is
free, and every search ends. A table whose chains are intact counts its live
buckets exactly and finds every stored key where it is stored; rehashing and
inserting keep it so without any further condition.
-/

namespace SimpleVm.HashTable

open OpenAddressing

universe u

variable {α : Type u}

def livePair : Option (HashNode α) → Option (CString × α)
  | some ⟨some key, data⟩ => some (key, data)
  | _ => none

def pairs (table : List (Option (HashNode α))) : List (CString × α) :=
  table.filterMap livePair

def keys (table : List (Option (HashNode α))) : List CString := (pairs table).map Prod.fst

def lookup (tab : HashTable α) : CString → Option α :=
  OpenAddressing.lookup (probePath tab.cap) tab.view

structure Sound (tab : HashTable α) : Prop where
  cap_pow : ∃ e, 2 ≤ e ∧ tab.cap = 2 ^ e
  cap_le : tab.cap ≤ 2 ^ 30
  length_table : tab.table.length = tab.cap
  live_le : (pairs tab.table).length ≤ tab.count
  count_lt : tab.count < tab.cap

structure WellFormed (tab : HashTable α) : Prop where
  cap_pow : ∃ e, 2 ≤ e ∧ tab.cap = 2 ^ e
  cap_le : tab.cap ≤ 2 ^ 30
  length_table : tab.table.length = tab.cap
  count_eq : tab.count = (pairs tab.table).length
  count_lt : tab.count < tab.cap
  searchable : Searchable (probePath tab.cap) tab.view

theorem livePair_eq_some {node : Option (HashNode α)} {p : CString × α} :
    livePair node = some p ↔ nodeBucket node = .live p.1 p.2 := by
  obtain ⟨k, d⟩ := p
  match node with
  | none => simp [livePair, nodeBucket]
  | some ⟨none, _⟩ => simp [livePair, nodeBucket]
  | some ⟨some k', d'⟩ => simp [livePair, nodeBucket]

theorem livePair_isSome (node : Option (HashNode α)) :
    (livePair node).isSome = (nodeBucket node).isLive := by
  match node with
  | none => rfl
  | some ⟨none, _⟩ => rfl
  | some ⟨some _, _⟩ => rfl

theorem bucket_of_lt {tab : HashTable α} {i : ℕ} (hi : i < tab.table.length) :
    tab.bucket i = tab.table[i] := by
  rw [bucket, List.getD_eq_getElem _ _ hi]

theorem bucket_of_ge {tab : HashTable α} {i : ℕ} (hi : tab.table.length ≤ i) :
    tab.bucket i = none := by
  rw [bucket, List.getD_eq_default _ _ hi]

theorem mem_pairs_iff {tab : HashTable α} {k : CString} {v : α} :
    (k, v) ∈ pairs tab.table ↔ ∃ s, tab.view s = .live k v := by
  constructor
  · intro h
    obtain ⟨node, hnode, hp⟩ := List.mem_filterMap.mp h
    obtain ⟨i, hi, rfl⟩ := List.mem_iff_getElem.mp hnode
    exact ⟨i, by rw [view, bucket_of_lt hi]; exact livePair_eq_some.mp hp⟩
  · rintro ⟨s, hs⟩
    have hlt : s < tab.table.length := by
      by_contra hge
      simp [view, bucket_of_ge (not_lt.mp hge), nodeBucket] at hs
    rw [view, bucket_of_lt hlt] at hs
    exact List.mem_filterMap.mpr
      ⟨tab.table[s], List.getElem_mem hlt, livePair_eq_some.mpr hs⟩

theorem mem_keys_iff {tab : HashTable α} {k : CString} :
    k ∈ keys tab.table ↔ ∃ s v, tab.view s = .live k v := by
  simp only [keys, List.mem_map, Prod.exists, exists_and_right, exists_eq_right, mem_pairs_iff]
  exact exists_comm

theorem length_pairs (table : List (Option (HashNode α))) :
    (pairs table).length = table.countP fun node => (nodeBucket node).isLive := by
  rw [pairs, List.length_filterMap_eq_countP]
  simp only [livePair_isSome]

theorem view_set {tab tab' : HashTable α} {s : ℕ} (node : Option (HashNode α))
    (hs : s < tab.table.length) (htab : tab'.table = tab.table.set s node) :
    tab'.view = Function.update tab.view s (nodeBucket node) := by
  funext i
  by_cases hi : i = s
  · subst hi
    simp [view, bucket, htab, hs]
  · simp [view, bucket, htab, List.getD_eq_getElem?_getD, List.getElem?_set_ne (Ne.symm hi), hi]

theorem nodup_keys {tab : HashTable α} (h : Searchable (probePath tab.cap) tab.view) :
    (keys tab.table).Nodup := by
  rw [keys, List.Nodup, List.pairwise_map, pairs, List.pairwise_filterMap,
    List.pairwise_iff_getElem]
  intro i j hi hj hij p hp q hq hpq
  have hvi : tab.view i = .live p.1 p.2 := by
    rw [view, bucket_of_lt hi]
    exact livePair_eq_some.mp hp
  have hvj : tab.view j = .live p.1 q.2 := by
    rw [view, bucket_of_lt hj, hpq]
    exact livePair_eq_some.mp hq
  exact hij.ne (h.slot_unique hvi hvj)

theorem countP_set_add {γ : Type u} (p : γ → Bool) {l : List γ} {i : ℕ} (hi : i < l.length)
    (a : γ) :
    (l.set i a).countP p + (if p l[i] then 1 else 0) = l.countP p + if p a then 1 else 0 := by
  have hpos : p l[i] = true → 0 < l.countP p :=
    fun hp => List.countP_pos_iff.mpr ⟨_, List.getElem_mem hi, hp⟩
  rw [List.countP_set hi]
  by_cases hp : p l[i] = true
  · have := hpos hp
    simp only [hp, if_true]
    omega
  · simp only [hp, Bool.false_eq_true, if_false]
    omega

theorem length_pairs_set {tab : HashTable α} {s : ℕ} (hs : s < tab.table.length)
    (node : Option (HashNode α)) :
    (pairs (tab.table.set s node)).length + (if (tab.view s).isLive then 1 else 0) =
      (pairs tab.table).length + if (nodeBucket node).isLive then 1 else 0 := by
  rw [length_pairs, length_pairs, view, bucket_of_lt hs]
  exact countP_set_add (fun node => (nodeBucket node).isLive) hs node

namespace Sound

variable {tab : HashTable α} (h : tab.Sound)

include h

theorem cap_pos : 0 < tab.cap := h.count_lt.trans_le' (Nat.zero_le _)

theorem exists_free : ∃ s < tab.cap, (tab.view s).isLive = false := by
  have hlt : tab.table.countP (fun node => (nodeBucket node).isLive) < tab.table.length := by
    rw [← length_pairs, h.length_table]
    exact h.live_le.trans_lt h.count_lt
  by_contra hall
  push Not at hall
  refine hlt.ne (List.countP_eq_length.mpr ?_)
  intro node hnode
  obtain ⟨i, hi, rfl⟩ := List.mem_iff_getElem.mp hnode
  have hlive := hall i (h.length_table ▸ hi)
  simpa [view, bucket_of_lt hi] using hlive

theorem findSlot_spec (key : CString) :
    ∃ s < tab.cap, search (probePath tab.cap key) tab.view key = some s ∧
      tab.findSlot key = .ok (s, tab.settle s) := by
  obtain ⟨e, -, he⟩ := h.cap_pow
  obtain ⟨s₀, hs₀, hfree⟩ := h.exists_free
  have hmem : s₀ ∈ probePath tab.cap key := by
    rw [he] at hs₀ ⊢
    exact (mem_probePath_iff key).mpr hs₀
  obtain ⟨s, hs⟩ := exists_search hmem (Bucket.ends_of_not_live hfree key)
  refine ⟨s, ?_, hs, ?_⟩
  · have hpath := (search_eq_some_iff.mp hs).1
    rw [he] at hpath ⊢
    exact (mem_probePath_iff key).mp hpath
  · rw [findSlot_eq tab h.cap_pos key, hs]

theorem room (hload : 7 * tab.count < 4 * tab.cap) : tab.count + 1 < tab.cap := by
  obtain ⟨e, he, hpow⟩ := h.cap_pow
  have hfour : 2 ^ 2 ≤ tab.cap := hpow ▸ Nat.pow_le_pow_right (by norm_num) he
  omega

theorem settle (s : ℕ) : (tab.settle s).Sound :=
  ⟨h.cap_pow, h.cap_le, h.length_table, h.live_le, h.count_lt⟩

end Sound

namespace WellFormed

variable {tab : HashTable α} (h : tab.WellFormed)

include h

theorem sound : tab.Sound :=
  ⟨h.cap_pow, h.cap_le, h.length_table, h.count_eq.ge, h.count_lt⟩

theorem cap_pos : 0 < tab.cap := h.sound.cap_pos

theorem lookup_eq_some_iff {k : CString} {v : α} :
    tab.lookup k = some v ↔ (k, v) ∈ pairs tab.table := by
  rw [mem_pairs_iff]
  exact h.searchable.lookup_eq_some_iff

theorem findSlot_spec (key : CString) :
    ∃ s < tab.cap, search (probePath tab.cap key) tab.view key = some s ∧
      tab.findSlot key = .ok (s, tab.settle s) :=
  h.sound.findSlot_spec key

theorem of_tombstones (n : ℤ) : ({ tab with tombstones := n } : HashTable α).WellFormed :=
  ⟨h.cap_pow, h.cap_le, h.length_table, h.count_eq, h.count_lt, h.searchable⟩

theorem settle (s : ℕ) : (tab.settle s).WellFormed := h.of_tombstones _

end WellFormed

@[simp] theorem lookup_settle (tab : HashTable α) (s : ℕ) :
    (tab.settle s).lookup = tab.lookup := rfl

/-! ## Storing a new key -/

def store (tab : HashTable α) (s : ℕ) (key : CString) (data : α) : HashTable α :=
  { tab with
    table := tab.table.set s (some ⟨some key, data⟩)
    count := tab.count + 1 }

theorem Sound.view_store {tab : HashTable α} (h : tab.Sound) {s : ℕ} (key : CString) (data : α)
    (hs : s < tab.cap) :
    (tab.store s key data).view = Function.update tab.view s (.live key data) :=
  view_set (some ⟨some key, data⟩) (h.length_table ▸ hs) rfl

theorem Sound.length_pairs_store {tab : HashTable α} (h : tab.Sound) {s : ℕ} (key : CString)
    (data : α) (hs : s < tab.cap) :
    (pairs (tab.store s key data).table).length + (if (tab.view s).isLive then 1 else 0) =
      (pairs tab.table).length + 1 :=
  length_pairs_set (h.length_table ▸ hs) (some ⟨some key, data⟩)

theorem Sound.store {tab : HashTable α} (h : tab.Sound) {s : ℕ} (key : CString) (data : α)
    (hs : s < tab.cap) (hroom : tab.count + 1 < tab.cap) : (tab.store s key data).Sound := by
  have hlive := h.live_le
  have hpairs := h.length_pairs_store key data hs
  refine ⟨h.cap_pow, h.cap_le, ?_, ?_, hroom⟩
  · simpa [HashTable.store] using h.length_table
  · change _ ≤ tab.count + 1
    omega

theorem WellFormed.store {tab : HashTable α} (h : tab.WellFormed) {s : ℕ} {key : CString}
    (data : α) (hs : s < tab.cap) (hroom : tab.count + 1 < tab.cap)
    (hsearch : search (probePath tab.cap key) tab.view key = some s)
    (hfree : (tab.view s).isLive = false) :
    (tab.store s key data).WellFormed ∧
      (tab.store s key data).lookup = Function.update tab.lookup key (some data) := by
  have hview := h.sound.view_store key data hs
  have hstore := h.sound.store key data hs hroom
  have hcount := h.sound.length_pairs_store key data hs
  simp only [hfree, Bool.false_eq_true, if_false, ← h.count_eq] at hcount
  constructor
  · refine ⟨h.cap_pow, h.cap_le, hstore.length_table, hcount.symm, hroom, ?_⟩
    rw [hview]
    exact h.searchable.put data hsearch
  · rw [HashTable.lookup, hview]
    exact h.searchable.lookup_put data hsearch

theorem lookup_eq_none_of_free {tab : HashTable α} {s : ℕ} {key : CString}
    (hsearch : search (probePath tab.cap key) tab.view key = some s)
    (hfree : (tab.view s).isLive = false) : tab.lookup key = none := by
  rw [lookup, lookup_of_search hsearch]
  cases hb : tab.view s with
  | vacant => rfl
  | deleted => rfl
  | live k v => simp [hb, Bucket.isLive] at hfree

theorem eq_of_search_live {tab : HashTable α} {s : ℕ} {key k : CString} {v : α}
    (hsearch : search (probePath tab.cap key) tab.view key = some s)
    (hlive : tab.view s = .live k v) : k = key ∧ tab.lookup key = some v := by
  have hend := (search_eq_some_iff.mp hsearch).2.1
  have hk : k = key := by simpa [hlive] using hend
  refine ⟨hk, ?_⟩
  rw [lookup, lookup_of_search hsearch, hlive, hk, Bucket.value?_live_self]

/-! ## Rehashing -/

/-- A table that `rehash_table` is filling: nothing was ever removed from it. -/
structure Filling (tab : HashTable α) : Prop where
  sound : tab.Sound
  searchable : Searchable (probePath tab.cap) tab.view
  view_ne_deleted : ∀ s, tab.view s ≠ .deleted
  tombstones_eq : tab.tombstones = 0

theorem settle_eq_self {tab : HashTable α} {s : ℕ} (hs : tab.view s ≠ .deleted) :
    tab.settle s = tab := by
  unfold HashTable.settle
  cases hv : tab.view s with
  | vacant => rfl
  | deleted => exact (hs hv).elim
  | live k v => rfl

theorem Filling.store {tab : HashTable α} (h : tab.Filling) {s : ℕ} {key : CString} (data : α)
    (hs : s < tab.cap) (hroom : tab.count + 1 < tab.cap)
    (hsearch : search (probePath tab.cap key) tab.view key = some s) :
    (tab.store s key data).Filling := by
  have hview := h.sound.view_store key data hs
  refine ⟨h.sound.store key data hs hroom, ?_, ?_, h.tombstones_eq⟩
  · rw [hview]
    exact h.searchable.put data hsearch
  · intro i
    rw [hview]
    by_cases hi : i = s
    · simp [hi]
    · simpa [hi] using h.view_ne_deleted i

theorem Filling.rehashBucket_live {tab : HashTable α} (h : tab.Filling)
    (hroom : tab.count + 1 < tab.cap) (key : CString) (data : α) :
    ∃ s, rehashBucket tab (some ⟨some key, data⟩) = .ok (tab.store s key data) ∧
      (tab.store s key data).Filling ∧
      (tab.store s key data).lookup = Function.update tab.lookup key (some data) := by
  obtain ⟨s, hs, hsearch, hslot⟩ := h.sound.findSlot_spec key
  refine ⟨s, ?_, h.store data hs hroom hsearch, ?_⟩
  · rw [rehashBucket, hslot, settle_eq_self (h.view_ne_deleted s)]
    simp only [ok_bind, HashTable.store]
  · rw [HashTable.lookup, h.sound.view_store key data hs]
    exact h.searchable.lookup_put data hsearch

theorem Filling.fill {l : List (Option (HashNode α))} {tab : HashTable α} (h : tab.Filling)
    (hroom : tab.count + (pairs l).length < tab.cap) :
    ∃ tab', l.foldlM rehashBucket tab = .ok tab' ∧ tab'.Filling ∧ tab'.cap = tab.cap ∧
      tab'.count = tab.count + (pairs l).length ∧ tab'.lookup = putAll tab.lookup (pairs l) := by
  induction l generalizing tab with
  | nil => exact ⟨tab, rfl, h, rfl, rfl, rfl⟩
  | cons node l ih =>
      match node with
      | none => exact ih h hroom
      | some ⟨none, _⟩ => exact ih h hroom
      | some ⟨some key, data⟩ =>
          have hp : pairs (some ⟨some key, data⟩ :: l) = (key, data) :: pairs l := rfl
          rw [hp, List.length_cons] at hroom
          obtain ⟨s, hstep, hfilling, hlookup⟩ := h.rehashBucket_live (by omega) key data
          obtain ⟨tab', hrun, h', hcap, hcount, hlook⟩ :=
            ih hfilling (by simp only [HashTable.store]; omega)
          refine ⟨tab', ?_, h', hcap, ?_, ?_⟩
          · rw [List.foldlM_cons, hstep]
            exact hrun
          · rw [hcount, hp, List.length_cons]
            simp only [HashTable.store]
            omega
          · rw [hlook, hlookup, hp, putAll_cons]

@[simp] theorem view_empty (n cap : ℕ) :
    (⟨List.replicate n none, cap, 0, 0⟩ : HashTable α).view = fun _ => .vacant := by
  funext i
  have hnone : (List.replicate n (none : Option (HashNode α))).getD i none = none := by
    rw [List.getD_eq_getElem?_getD, List.getElem?_replicate]
    split <;> rfl
  rw [view, bucket, hnone]
  rfl

theorem pairs_replicate (n : ℕ) : pairs (List.replicate n (none : Option (HashNode α))) = [] := by
  simp [pairs, livePair]

theorem wellFormed_empty {e : ℕ} (he : 2 ≤ e) (he' : e ≤ 30) :
    (⟨List.replicate (2 ^ e) none, 2 ^ e, 0, 0⟩ : HashTable α).WellFormed where
  cap_pow := ⟨e, he, rfl⟩
  cap_le := Nat.pow_le_pow_right (by norm_num) he'
  length_table := List.length_replicate
  count_eq := by rw [pairs_replicate, List.length_nil]
  count_lt := Nat.two_pow_pos e
  searchable := by
    rw [view_empty]
    exact searchable_vacant

theorem lookup_empty (n cap : ℕ) (key : CString) :
    (⟨List.replicate n none, cap, 0, 0⟩ : HashTable α).lookup key = none := by
  rw [lookup, view_empty]
  exact lookup_vacant key

theorem filling_empty {e : ℕ} (he : 2 ≤ e) (he' : e ≤ 30) :
    (⟨List.replicate (2 ^ e) none, 2 ^ e, 0, 0⟩ : HashTable α).Filling where
  sound := (wellFormed_empty he he').sound
  searchable := (wellFormed_empty he he').searchable
  view_ne_deleted := by simp
  tombstones_eq := rfl

/-- The table that `rehash_table` starts to fill. -/
def doubled (tab : HashTable α) : HashTable α where
  table := List.replicate (2 * tab.cap) none
  cap := 2 * tab.cap
  count := 0
  tombstones := 0

theorem Sound.filling_doubled {tab : HashTable α} (h : tab.Sound) (hcap : tab.cap < 2 ^ 30) :
    tab.doubled.Filling := by
  obtain ⟨e, he, hpow⟩ := h.cap_pow
  have he' : e < 30 := (Nat.pow_lt_pow_iff_right (by norm_num)).mp (hpow ▸ hcap)
  have hdouble : 2 * tab.cap = 2 ^ (e + 1) := by rw [hpow, pow_succ, mul_comm]
  unfold doubled
  rw [hdouble]
  exact filling_empty (by omega) he'

theorem Sound.fill {tab : HashTable α} (h : tab.Sound) (hcap : tab.cap < 2 ^ 30)
    {l : List (Option (HashNode α))} (hl : (pairs l).length ≤ (pairs tab.table).length) :
    ∃ tab', l.foldlM rehashBucket tab.doubled = .ok tab' ∧ tab'.Filling ∧
      tab'.cap = 2 * tab.cap ∧ tab'.count = (pairs l).length ∧
      tab'.lookup = putAll (fun _ => none) (pairs l) := by
  have hlive := h.live_le
  have hlt := h.count_lt
  obtain ⟨tab', hrun, h', hcap', hcount, hlook⟩ :=
    (h.filling_doubled hcap).fill (l := l) (by simp only [doubled]; omega)
  have hempty : tab.doubled.lookup = fun _ => none := funext (lookup_empty _ _)
  exact ⟨tab', hrun, h', hcap', hcount.trans (Nat.zero_add _), hempty ▸ hlook⟩

/-- What `rehash_table` does to a sound table. -/
theorem Sound.rehash_cases {tab : HashTable α} (h : tab.Sound) :
    (4 * tab.cap ≤ 7 * tab.count ∧ 2 ^ 30 ≤ tab.cap ∧ tab.rehashTable = .error .fatal) ∨
    (7 * tab.count < 4 * tab.cap ∧ tab.rehashTable = .ok tab) ∨
    (4 * tab.cap ≤ 7 * tab.count ∧ tab.cap < 2 ^ 30 ∧
      ∃ tab', tab.rehashTable = .ok tab' ∧ tab'.Filling ∧ tab'.cap = 2 * tab.cap ∧
        tab'.count = (pairs tab.table).length ∧
        tab'.lookup = putAll (fun _ => none) (pairs tab.table)) := by
  unfold HashTable.rehashTable
  by_cases hfull : 4 * tab.cap ≤ 7 * tab.count
  · by_cases hcap : 2 ^ 30 ≤ tab.cap
    · exact .inl ⟨hfull, hcap, by rw [if_pos hfull, if_pos hcap]⟩
    · rw [if_pos hfull, if_neg hcap]
      exact .inr (.inr ⟨hfull, not_le.mp hcap, h.fill (not_le.mp hcap) le_rfl⟩)
  · rw [if_neg hfull]
    exact .inr (.inl ⟨not_le.mp hfull, rfl⟩)

/-- What `insert_hashtable` and every other call find behind `rehash_table`. -/
theorem Sound.rehashTable {tab tab' : HashTable α} (h : tab.Sound)
    (hrun : tab.rehashTable = .ok tab') : tab'.Sound ∧ 7 * tab'.count < 4 * tab'.cap := by
  have hlive := h.live_le
  have hlt := h.count_lt
  rcases h.rehash_cases with ⟨-, -, hrun'⟩ | ⟨hload, hrun'⟩ | ⟨-, -, tab₁, hrun', h', hcap', hcount, -⟩
  · simp [hrun'] at hrun
  · obtain rfl : tab = tab' := by simpa [hrun'] using hrun
    exact ⟨h, hload⟩
  · obtain rfl : tab₁ = tab' := by simpa [hrun'] using hrun
    exact ⟨h'.sound, by omega⟩

theorem Filling.length_pairs {tab : HashTable α} (h : tab.Filling)
    {l : List (CString × α)} (hlook : tab.lookup = putAll (fun _ => none) l) :
    (pairs tab.table).length = (l.map Prod.fst).dedup.length := by
  have hmem : ∀ k, k ∈ keys tab.table ↔ k ∈ (l.map Prod.fst).dedup := by
    intro k
    have hkeys : k ∈ keys tab.table ↔ (tab.lookup k).isSome := by
      simp only [mem_keys_iff, Option.isSome_iff_exists, HashTable.lookup,
        h.searchable.lookup_eq_some_iff]
      exact exists_comm
    rw [hkeys, hlook, isSome_putAll_iff, List.mem_dedup]
    simp
  have hperm := (List.perm_ext_iff_of_nodup (nodup_keys h.searchable) (List.nodup_dedup _)).mpr hmem
  rw [← hperm.length_eq, keys, List.length_map]

/-- Below `2 ^ 30 / 1.75` live keys a call of `rehash_table` succeeds; it
leaves room for one more key and changes no answer. -/
theorem WellFormed.rehashTable {tab : HashTable α} (h : tab.WellFormed) :
    (tab.rehashTable = .error .fatal ∧ 613566757 ≤ tab.count) ∨
      ∃ tab', tab.rehashTable = .ok tab' ∧ tab'.WellFormed ∧ tab'.count = tab.count ∧
        7 * tab'.count < 4 * tab'.cap ∧ tab'.lookup = tab.lookup := by
  rcases h.sound.rehash_cases with
    ⟨hfull, hcap, hrun⟩ | ⟨hload, hrun⟩ | ⟨-, -, tab', hrun, h', -, hcount, hlook⟩
  · exact .inl ⟨hrun, by omega⟩
  · exact .inr ⟨tab, hrun, h, rfl, hload, rfl⟩
  · have hnodup : ((pairs tab.table).map Prod.fst).Nodup := nodup_keys h.searchable
    have hlive : (pairs tab'.table).length = (pairs tab.table).length := by
      rw [h'.length_pairs hlook, hnodup.dedup, List.length_map]
    obtain ⟨hsound, hload⟩ := h.sound.rehashTable hrun
    refine .inr ⟨tab', hrun, ⟨hsound.cap_pow, hsound.cap_le, hsound.length_table, ?_,
      hsound.count_lt, h'.searchable⟩, ?_, hload, ?_⟩
    · rw [hcount, hlive]
    · rw [hcount, h.count_eq]
    · funext k
      apply Option.ext
      intro v
      rw [hlook, putAll_eq_some_iff hnodup (fun _ _ => rfl), h.lookup_eq_some_iff]
      simp

end SimpleVm.HashTable
