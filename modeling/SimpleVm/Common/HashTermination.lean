import SimpleVm.Common.HashRefinement

/-!
# The probe loop ends

The loop of `find_slot` has no bound of its own. It ends because every table
a run can reach is sound, so that the second time the inner loop is entered,
with steps of one, it comes to a bucket without a live key.
-/

namespace SimpleVm.HashTable

open OpenAddressing

universe u

variable {α : Type u}

/-- The `do … while(true)` loop one probe at a time, for so many probes. `i` is
the counter of the inner `for` loop; `none` means that no slot is found yet. -/
def probeLoop (tab : HashTable α) (key : CString) : ℕ → ℕ → ℕ → ℕ → Option ℕ
  | 0, _, _, _ => none
  | n + 1, i, inc, hash =>
      match tab.bucket hash with
      | none => some hash
      | some ⟨none, _⟩ => some hash
      | some ⟨some k, _⟩ =>
          if k = key then some hash
          else if i + 1 < tab.cap then
            probeLoop tab key n (i + 1) inc ((hash + inc) &&& (tab.cap - 1))
          else probeLoop tab key n 0 1 ((hash + inc) &&& (tab.cap - 1))

def probe (tab : HashTable α) (key : CString) (n : ℕ) : Option ℕ :=
  probeLoop tab key n 0 (probeInc tab.cap key) (probeHash tab.cap key)

theorem probeLoop_succ (tab : HashTable α) (key : CString) (n i inc hash : ℕ) :
    probeLoop tab key (n + 1) i inc hash =
      if (tab.view hash).ends key then some hash
      else if i + 1 < tab.cap then
        probeLoop tab key n (i + 1) inc ((hash + inc) &&& (tab.cap - 1))
      else probeLoop tab key n 0 1 ((hash + inc) &&& (tab.cap - 1)) := by
  rw [probeLoop, view]
  rcases tab.bucket hash with _ | ⟨_ | k, data⟩
  · simp [nodeBucket]
  · simp [nodeBucket]
  · simp [nodeBucket]

theorem search_cons (s : ℕ) (p : List ℕ) (t : ℕ → Bucket CString α) (key : CString) :
    search (s :: p) t key = if (t s).ends key then some s else search p t key := by
  simp only [search, List.find?_cons]
  cases (t s).ends key with
  | true => rfl
  | false => rfl

/-- The rest of one round of the inner loop, and what is left for the next one. -/
theorem probeLoop_round (tab : HashTable α) (key : CString) (inc n : ℕ) {m i hash : ℕ}
    (hm : 0 < m) (hi : i + m = tab.cap) :
    probeLoop tab key (m + n) i inc hash =
      (search (walk tab.cap inc m hash) tab.view key).or
        (probeLoop tab key n 0 1 (walkEnd tab.cap inc m hash)) := by
  induction m generalizing i hash with
  | zero => omega
  | succ m ih =>
      rw [Nat.succ_add, probeLoop_succ, walk, search_cons, walkEnd]
      by_cases hend : (tab.view hash).ends key = true
      · simp only [hend, if_true, Option.some_or]
      · simp only [hend, Bool.false_eq_true, if_false]
        cases m with
        | zero =>
            have hlast : ¬ i + 1 < tab.cap := by omega
            simp [hlast, walk, search, walkEnd]
        | succ m =>
            rw [if_pos (by omega)]
            apply ih
            · omega
            · omega

theorem probe_two_rounds (tab : HashTable α) (hcap : 0 < tab.cap) (key : CString) :
    tab.probe key (2 * tab.cap) = search (probePath tab.cap key) tab.view key := by
  rw [probe, two_mul, probeLoop_round tab key _ _ hcap (Nat.zero_add _), probePath, search_append]
  congr 1
  have hsecond (hash : ℕ) : probeLoop tab key (tab.cap + 0) 0 1 hash =
      search (walk tab.cap 1 tab.cap hash) tab.view key := by
    rw [probeLoop_round tab key 1 0 hcap (Nat.zero_add _), probeLoop, Option.or_none]
  exact hsecond _

/-- The search for `key` ends within two rounds, at a bucket that is empty, a
tombstone or holds the key. -/
def SearchEnds (tab : HashTable α) (key : CString) : Prop :=
  ∃ s < tab.cap, tab.probe key (2 * tab.cap) = some s ∧
    (∃ tab', tab.findSlot key = .ok (s, tab')) ∧
    (tab.bucket s = none ∨ (∃ data, tab.bucket s = some ⟨none, data⟩) ∨
      ∃ data, tab.bucket s = some ⟨some key, data⟩)

theorem Sound.searchEnds {tab : HashTable α} (h : tab.Sound) (key : CString) :
    tab.SearchEnds key := by
  obtain ⟨s, hs, hsearch, hslot⟩ := h.findSlot_spec key
  refine ⟨s, hs, ?_, ⟨tab.settle s, hslot⟩, ?_⟩
  · rw [probe_two_rounds tab h.cap_pos, hsearch]
  · rcases live_or_free hsearch with ⟨data, hlive⟩ | hfree
    · exact .inr (.inr ⟨data, bucket_of_view hlive⟩)
    · rcases bucket_of_free hfree with hb | hb
      · exact .inl hb
      · exact .inr (.inl hb)

/-! ## Every reachable table is sound -/

theorem Sound.bury {tab : HashTable α} (h : tab.Sound) {s : ℕ} {key : CString} {data : α}
    (hs : s < tab.cap) (hlive : tab.view s = .live key data) : (tab.bury s data).Sound := by
  have hlen : s < tab.table.length := h.length_table ▸ hs
  have hpairs := length_pairs_set hlen (some ⟨none, data⟩)
  rw [hlive] at hpairs
  simp only [Bucket.isLive, nodeBucket, if_true, Bool.false_eq_true, if_false] at hpairs
  have hle := h.live_le
  have hlt := h.count_lt
  refine ⟨h.cap_pow, h.cap_le, ?_, ?_, ?_⟩
  · simpa [HashTable.bury] using h.length_table
  · simp only [HashTable.bury]
    omega
  · simp only [HashTable.bury]
    omega

/-- What one call can do to the table. -/
def Effect (tab : HashTable α) (call : Call α) (tab' : HashTable α) : Prop :=
  match call with
  | .insert key data => ∃ tab₁ s, tab.rehashTable = .ok tab₁ ∧ s < tab₁.cap ∧
      search (probePath tab₁.cap key) tab₁.view key = some s ∧
      ((∃ v, tab₁.view s = .live key v ∧ tab' = tab₁) ∨
        ((tab₁.view s).isLive = false ∧ tab' = (tab₁.settle s).store s key data))
  | .find key | .nameExists key => ∃ s < tab.cap,
      search (probePath tab.cap key) tab.view key = some s ∧ tab' = tab.settle s
  | .remove key => ∃ s < tab.cap, search (probePath tab.cap key) tab.view key = some s ∧
      ((∃ v, tab.view s = .live key v ∧ tab' = tab.bury s v) ∨
        ((tab.view s).isLive = false ∧ tab' = tab.settle s))

/-- A call on a sound table returns, unless it asks for more buckets than there can be. -/
theorem Sound.perform_cases {tab : HashTable α} (h : tab.Sound) (call : Call α) :
    ((∃ key data, call = .insert key data) ∧ tab.rehashTable = .error .fatal ∧
        tab.perform call = .error .fatal) ∨
      ∃ answer tab', tab.perform call = .ok (answer, tab') ∧ tab.Effect call tab' := by
  cases call with
  | insert key data =>
      cases hrehash : tab.rehashTable with
      | error e =>
          left
          rcases h.rehash_cases with ⟨-, -, hfatal⟩ | ⟨-, hok⟩ | ⟨-, -, tab', hok, -⟩
          · obtain rfl : e = .fatal := by simpa [hrehash] using hfatal
            refine ⟨⟨key, data, rfl⟩, rfl, ?_⟩
            simp only [perform, insertHashtable, hfatal, error_bind]
          · simp [hok] at hrehash
          · simp [hok] at hrehash
      | ok tab₁ =>
          right
          obtain ⟨s, hs, hsearch, ⟨v, hlive, hrun⟩ | ⟨hfree, hrun⟩⟩ :=
            insertHashtable_cases hrehash (h.rehashTable hrehash).1 key data
          · rw [settle_eq_self (by simp [hlive])] at hrun
            refine ⟨.inserted 0, tab₁, ?_, tab₁, s, hrehash, hs, hsearch, .inl ⟨v, hlive, rfl⟩⟩
            simp only [perform, hrun, ok_bind]
          · refine ⟨.inserted 1, (tab₁.settle s).store s key data, ?_, tab₁, s, hrehash, hs, hsearch,
              .inr ⟨hfree, rfl⟩⟩
            simp only [perform, hrun, ok_bind]
  | find key =>
      right
      obtain ⟨s, hs, hsearch, -⟩ := h.findSlot_spec key
      refine ⟨.found (tab.lookup key), tab.settle s, ?_, s, hs, hsearch, rfl⟩
      rw [perform, findHashtable_eq tab h.cap_pos, hsearch]
      simp only [ok_bind]
  | nameExists key =>
      right
      obtain ⟨s, hs, hsearch, -⟩ := h.findSlot_spec key
      refine ⟨.present (if (tab.lookup key).isSome then 1 else 0), tab.settle s, ?_, s, hs,
        hsearch, rfl⟩
      rw [perform, hashNameExists_eq tab h.cap_pos, hsearch]
      simp only [ok_bind]
  | remove key =>
      right
      obtain ⟨s, hs, hsearch, ⟨v, hlive, hrun⟩ | ⟨hfree, hrun⟩⟩ := h.removeHashtable_cases key
      · refine ⟨.removed, tab.bury s v, ?_, s, hs, hsearch, .inl ⟨v, hlive, rfl⟩⟩
        simp only [perform, hrun, ok_bind]
      · refine ⟨.removed, tab.settle s, ?_, s, hs, hsearch, .inr ⟨hfree, rfl⟩⟩
        simp only [perform, hrun, ok_bind]

theorem Sound.effect {tab tab' : HashTable α} (h : tab.Sound) {call : Call α} {answer : Answer α}
    (hrun : tab.perform call = .ok (answer, tab')) : tab.Effect call tab' := by
  rcases h.perform_cases call with ⟨-, -, hfatal⟩ | ⟨answer', tab'', hok, heffect⟩
  · simp [hfatal] at hrun
  · obtain ⟨-, rfl⟩ : answer' = answer ∧ tab'' = tab' := by simpa [hok] using hrun
    exact heffect

theorem Sound.of_effect {tab tab' : HashTable α} (h : tab.Sound) {call : Call α}
    (heffect : tab.Effect call tab') : tab'.Sound := by
  cases call with
  | insert key data =>
      obtain ⟨tab₁, s, hrehash, hs, -, ⟨v, -, rfl⟩ | ⟨-, rfl⟩⟩ := heffect
      · exact (h.rehashTable hrehash).1
      · obtain ⟨h₁, hload⟩ := h.rehashTable hrehash
        exact (h₁.settle s).store key data hs (h₁.room hload)
  | find key =>
      obtain ⟨s, -, -, rfl⟩ := heffect
      exact h.settle s
  | nameExists key =>
      obtain ⟨s, -, -, rfl⟩ := heffect
      exact h.settle s
  | remove key =>
      obtain ⟨s, hs, -, ⟨v, hlive, rfl⟩ | ⟨-, rfl⟩⟩ := heffect
      · exact h.bury hs hlive
      · exact h.settle s

theorem sound_after {calls : List (Call α)} {tab : HashTable α} (htab : after calls = .ok tab) :
    tab.Sound := by
  refine isRun_after.invariant (I := fun _ tab => tab.Sound) ?_ ?_ htab
  · rintro tab ⟨⟩
    exact wellFormed_create.sound
  · rintro pre call tab tab' - - h ⟨answer, hrun⟩
    exact h.of_effect (h.effect hrun)

/-- No run of calls hangs. -/
theorem after_cases (calls : List (Call α)) :
    after calls = .error .fatal ∨ ∃ tab, after calls = .ok tab := by
  induction calls using List.reverseRecOn with
  | nil => exact .inr ⟨createHashtable, rfl⟩
  | append_singleton calls call ih =>
      rw [after_concat]
      rcases ih with hfatal | ⟨tab, htab⟩
      · left
        rw [hfatal, error_bind]
      · rw [htab, ok_bind]
        rcases (sound_after htab).perform_cases call with ⟨-, -, hfatal⟩ | ⟨answer, tab', hok, -⟩
        · left
          rw [hfatal, error_bind]
        · right
          exact ⟨tab', by rw [hok, ok_bind]⟩

/-- Every search of every run ends within `2 * cap` probes: in the table itself,
behind `rehash_table`, and while `rehash_table` moves the nodes. -/
theorem findSlot_terminates (calls : List (Call α)) (tab : HashTable α)
    (htab : after calls = .ok tab) :
    (∀ key, tab.SearchEnds key) ∧
    (∀ tab', tab.rehashTable = .ok tab' → ∀ key, tab'.SearchEnds key) ∧
    (4 * tab.cap ≤ 7 * tab.count → tab.cap < 2 ^ 30 →
      ∀ pre key data, pre ++ [some ⟨some key, data⟩] <+: tab.table →
        ∃ mid, pre.foldlM rehashBucket tab.doubled = .ok mid ∧ mid.cap = 2 * tab.cap ∧
          mid.SearchEnds key) := by
  have h := sound_after htab
  refine ⟨h.searchEnds, fun tab' hrehash => (h.rehashTable hrehash).1.searchEnds, ?_⟩
  intro _ hcap pre key data hpre
  have hle : (pairs pre).length ≤ (pairs tab.table).length := by
    obtain ⟨rest, hrest⟩ := hpre
    rw [← hrest, pairs, pairs, List.append_assoc, List.filterMap_append, List.length_append]
    exact Nat.le_add_right _ _
  obtain ⟨mid, hrun, hmid, hcap', -⟩ := h.fill hcap hle
  exact ⟨mid, hrun, hcap', hmid.sound.searchEnds key⟩

/-- Two keys of one first bucket, of which the first goes, and two more keys:
the rehashing is due. -/
theorem findSlot_terminates_rehashed :
    ∃ tab tab' : HashTable ℕ, after [.insert ⟨[97], by decide⟩ 1, .insert ⟨[101], by decide⟩ 2,
        .remove ⟨[97], by decide⟩, .insert ⟨[98], by decide⟩ 3,
        .insert ⟨[99], by decide⟩ 4] = .ok tab ∧
      tab.rehashTable = .ok tab' ∧ tab.cap = 4 ∧ tab'.cap = 8 ∧
      (∀ key, tab.SearchEnds key) ∧ (∀ key, tab'.SearchEnds key) ∧
      ∃ mid, (tab.table.take 2).foldlM rehashBucket tab.doubled = .ok mid ∧
        mid.cap = 8 ∧ mid.SearchEnds ⟨[98], by decide⟩ := by
  have htab : after [.insert ⟨[97], by decide⟩ 1, .insert ⟨[101], by decide⟩ 2,
      .remove ⟨[97], by decide⟩, .insert ⟨[98], by decide⟩ 3, .insert ⟨[99], by decide⟩ 4] =
      .ok { table := [some ⟨some ⟨[99], by decide⟩, 4⟩, some ⟨some ⟨[101], by decide⟩, 2⟩,
              some ⟨some ⟨[98], by decide⟩, 3⟩, none]
            cap := 4, count := 3, tombstones := 0 } := by decide
  have htab' : HashTable.rehashTable
      { table := [some ⟨some ⟨[99], by decide⟩, 4⟩, some ⟨some ⟨[101], by decide⟩, 2⟩,
          some ⟨some ⟨[98], by decide⟩, 3⟩, none]
        cap := 4, count := 3, tombstones := 0 } =
      .ok { table := [some ⟨some ⟨[101], by decide⟩, 2⟩, none, some ⟨some ⟨[99], by decide⟩, 4⟩,
              none, none, some ⟨some ⟨[98], by decide⟩, 3⟩, none, none]
            cap := 8, count := 3, tombstones := 0 } := by decide
  obtain ⟨hends, hrehashed, hfill⟩ := findSlot_terminates _ _ htab
  exact ⟨_, _, htab, htab', rfl, rfl, hends, hrehashed _ htab',
    hfill (by decide) (by decide) _ _ 3 ⟨[none], rfl⟩⟩

end SimpleVm.HashTable
