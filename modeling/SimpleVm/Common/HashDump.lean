import SimpleVm.Common.HashInvariant

/-!
# Printing a hash table

The loop of `dump_hashtable` goes through all buckets and prints a line for
each key, so a table prints its pairs in the order of its slots.
-/

namespace SimpleVm.HashTable

universe u

variable {α : Type u}

/-- What is printed for a key, with the data behind it for the caller that prints them too. -/
structure Line (α : Type u) where
  count : ℕ
  slot : ℕ
  key : CString
  data : α
  deriving DecidableEq

/-- The `for` loop from bucket `i` on, for so many rounds. -/
def dumpBuckets (tab : HashTable α) : ℕ → ℕ → ℕ → List (Line α)
  | 0, _, _ => []
  | rounds + 1, i, count =>
      match tab.bucket i with
      | some ⟨some key, data⟩ => ⟨count, i, key, data⟩ :: dumpBuckets tab rounds (i + 1) (count + 1)
      | _ => dumpBuckets tab rounds (i + 1) count

structure Dump (α : Type u) where
  cap : ℕ
  count : ℕ
  lines : List (Line α)
  deriving DecidableEq

def dumpHashtable (tab : HashTable α) : Dump α where
  cap := tab.cap
  count := tab.count
  lines := dumpBuckets tab tab.cap 0 1

/-! ## The lines -/

section Lines

variable (tab : HashTable α)

theorem dumpBuckets_cases (rounds i count : ℕ) :
    (∃ key data, tab.bucket i = some ⟨some key, data⟩ ∧
        dumpBuckets tab (rounds + 1) i count =
          ⟨count, i, key, data⟩ :: dumpBuckets tab rounds (i + 1) (count + 1)) ∨
      (livePair (tab.bucket i) = none ∧
        dumpBuckets tab (rounds + 1) i count = dumpBuckets tab rounds (i + 1) count) := by
  rw [dumpBuckets]
  split
  · next key data hbucket => exact .inl ⟨key, data, hbucket, rfl⟩
  · next hother =>
      refine .inr ⟨?_, rfl⟩
      rw [livePair.eq_def]
      split
      · next key data hbucket => exact absurd hbucket (hother key data)
      · rfl

theorem counts_dumpBuckets (rounds i count : ℕ) :
    (dumpBuckets tab rounds i count).map Line.count =
      List.range' count (dumpBuckets tab rounds i count).length := by
  induction rounds generalizing i count with
  | zero => rfl
  | succ rounds ih =>
      rcases dumpBuckets_cases tab rounds i count with ⟨key, data, -, heq⟩ | ⟨-, heq⟩
      · rw [heq, List.map_cons, ih, List.length_cons, List.range'_succ]
      · rw [heq]
        exact ih (i + 1) count

theorem slots_dumpBuckets (rounds i count : ℕ) :
    (∀ l ∈ dumpBuckets tab rounds i count, i ≤ l.slot ∧ l.slot < i + rounds ∧
        tab.bucket l.slot = some ⟨some l.key, l.data⟩) ∧
      (dumpBuckets tab rounds i count).Pairwise fun l l' => l.slot < l'.slot := by
  induction rounds generalizing i count with
  | zero => exact ⟨List.forall_mem_nil _, .nil⟩
  | succ rounds ih =>
      rcases dumpBuckets_cases tab rounds i count with ⟨key, data, hbucket, heq⟩ | ⟨-, heq⟩
      · obtain ⟨hmem, hpair⟩ := ih (i + 1) (count + 1)
        rw [heq, List.forall_mem_cons, List.pairwise_cons]
        refine ⟨⟨⟨le_rfl, by simp, hbucket⟩, ?_⟩, ?_, hpair⟩
        · intro l hl
          obtain ⟨hle, hlt, hl⟩ := hmem l hl
          exact ⟨by omega, by omega, hl⟩
        · intro l hl
          exact (hmem l hl).1
      · obtain ⟨hmem, hpair⟩ := ih (i + 1) count
        rw [heq]
        refine ⟨?_, hpair⟩
        intro l hl
        obtain ⟨hle, hlt, hl⟩ := hmem l hl
        exact ⟨by omega, by omega, hl⟩

/-- The lines are the pairs of the buckets that are left. -/
theorem pairs_dumpBuckets {rounds i : ℕ} (h : i + rounds = tab.table.length) (count : ℕ) :
    (dumpBuckets tab rounds i count).map (fun l => (l.key, l.data)) =
      pairs (tab.table.drop i) := by
  induction rounds generalizing i count with
  | zero =>
      rw [List.drop_of_length_le (by omega)]
      rfl
  | succ rounds ih =>
      have hi : i < tab.table.length := by omega
      have hdrop := List.drop_eq_getElem_cons hi
      rw [← bucket_of_lt hi] at hdrop
      rw [hdrop]
      rcases dumpBuckets_cases tab rounds i count with ⟨key, data, hbucket, heq⟩ | ⟨hnone, heq⟩
      · rw [heq, List.map_cons, ih (by omega), hbucket]
        rfl
      · rw [heq, ih (by omega), pairs, pairs, List.filterMap_cons_none hnone]

end Lines

/-! ## The dump of a table -/

/-- Every key of the table has one line with its data, and the lines are numbered from one in
the order of their slots. -/
structure Dump.Lists (dump : Dump α) (m : CString → Option α) : Prop where
  length_lines : dump.lines.length = dump.count
  counts_eq : dump.lines.map Line.count = List.range' 1 dump.count
  slots : dump.lines.Pairwise fun l l' => l.slot < l'.slot
  slots_lt : ∀ l ∈ dump.lines, l.slot < dump.cap
  keys_nodup : (dump.lines.map Line.key).Nodup
  mem_iff : ∀ key data, (∃ l ∈ dump.lines, l.key = key ∧ l.data = data) ↔ m key = some data

theorem WellFormed.dumpHashtable {tab : HashTable α} (h : tab.WellFormed) :
    tab.dumpHashtable.Lists tab.lookup := by
  have hpairs : tab.dumpHashtable.lines.map (fun l => (l.key, l.data)) = pairs tab.table := by
    have hlines : tab.dumpHashtable.lines.map (fun l => (l.key, l.data)) =
        pairs (tab.table.drop 0) :=
      pairs_dumpBuckets tab (by rw [h.length_table, Nat.zero_add]) 1
    rwa [List.drop_zero] at hlines
  have hlength : tab.dumpHashtable.lines.length = tab.count := by
    rw [h.count_eq, ← hpairs, List.length_map]
  have hcounts := counts_dumpBuckets tab tab.cap 0 1
  obtain ⟨hslots, hpairwise⟩ := slots_dumpBuckets tab tab.cap 0 1
  refine ⟨hlength, ?_, hpairwise, ?_, ?_, ?_⟩
  · change (dumpBuckets tab tab.cap 0 1).map Line.count = List.range' 1 tab.count
    rw [hcounts]
    exact congrArg (List.range' 1) hlength
  · intro l hl
    obtain ⟨-, hlt, -⟩ := hslots l hl
    rwa [Nat.zero_add] at hlt
  · have hkeys : tab.dumpHashtable.lines.map Line.key = keys tab.table := by
      rw [keys, ← hpairs, List.map_map]
      rfl
    rw [hkeys]
    exact nodup_keys h.searchable
  · intro key data
    rw [h.lookup_eq_some_iff, ← hpairs, List.mem_map]
    simp only [Prod.mk.injEq]

end SimpleVm.HashTable
