import SimpleVm.Common.HashInvariant
import SimpleVm.Lib.Runs

/-!
# The hash table against a finite map

A removal leaves a tombstone at which every later search stops. As long as
each removed bucket lies on no other key's path, every call of every run is
answered as the map from keys to data answers it; the first removal that
cuts a path loses the key behind it.
-/

namespace SimpleVm.HashTable

open OpenAddressing

universe u

variable {α : Type u}

inductive Call (α : Type u) where
  | insert (key : CString) (data : α)
  | find (key : CString)
  | nameExists (key : CString)
  | remove (key : CString)

inductive Answer (α : Type u) where
  | inserted (result : ℤ)
  | found (data : Option α)
  | present (result : ℤ)
  | removed
  deriving DecidableEq

def perform (tab : HashTable α) : Call α → Except Halt (Answer α × HashTable α)
  | .insert key data => do
      let (result, tab) ← tab.insertHashtable key data
      .ok (.inserted result, tab)
  | .find key => do
      let (data, tab) ← tab.findHashtable key
      .ok (.found data, tab)
  | .nameExists key => do
      let (result, tab) ← tab.hashNameExists key
      .ok (.present result, tab)
  | .remove key => do
      let tab ← tab.removeHashtable key
      .ok (.removed, tab)

/-- What a map from keys to data does on the same call. -/
def mapPerform (m : CString → Option α) : Call α → Answer α × (CString → Option α)
  | .insert key data =>
      match m key with
      | some _ => (.inserted 0, m)
      | none => (.inserted 1, Function.update m key (some data))
  | .find key => (.found (m key), m)
  | .nameExists key => (.present (if (m key).isSome then 1 else 0), m)
  | .remove key => (.removed, Function.update m key none)

def after (calls : List (Call α)) : Except Halt (HashTable α) :=
  calls.foldlM (fun tab call => do let (_, tab) ← tab.perform call; .ok tab) createHashtable

def mapAfter (calls : List (Call α)) : CString → Option α :=
  calls.foldl (fun m call => (mapPerform m call).2) fun _ => none

/-- Every call made on `tab` gives the map's answer, unless the program stops
because the table cannot be doubled any more. -/
def AnswersAs (tab : HashTable α) (m : CString → Option α) : Prop :=
  ∀ call, (tab.perform call = .error .fatal ∧ 613566757 ≤ tab.count) ∨
    ∃ tab', tab.perform call = .ok ((mapPerform m call).1, tab')

def RefinesMap (calls : List (Call α)) : Prop :=
  ∀ pre, pre <+: calls → ∀ tab, after pre = .ok tab → tab.AnswersAs (mapAfter pre)

/-- The bucket of `key`, if it has one, is on the path of no other key. -/
def SafeRemoval (tab : HashTable α) (key : CString) : Prop :=
  ∀ s data, tab.view s = .live key data → CutsNone (probePath tab.cap) tab.view s

def ChainsKept (calls : List (Call α)) : Prop :=
  ∀ pre key, pre ++ [.remove key] <+: calls → ∀ tab, after pre = .ok tab → tab.SafeRemoval key

theorem after_concat (calls : List (Call α)) (call : Call α) :
    after (calls ++ [call]) =
      after calls >>= fun tab => tab.perform call >>= fun r => .ok r.2 := by
  simp only [after, List.foldlM_append, List.foldlM_cons, List.foldlM_nil, bind_pure]

theorem mapAfter_concat (calls : List (Call α)) (call : Call α) :
    mapAfter (calls ++ [call]) = (mapPerform (mapAfter calls) call).2 := by
  simp [mapAfter]

theorem wellFormed_create : (createHashtable : HashTable α).WellFormed :=
  wellFormed_empty (e := 2) (by norm_num) (by norm_num)

theorem lookup_create : (createHashtable : HashTable α).lookup = fun _ => none :=
  funext (lookup_empty 4 4)

/-! ## The operations one by one -/

theorem findHashtable_eq (tab : HashTable α) (hcap : 0 < tab.cap) (key : CString) :
    tab.findHashtable key =
      match search (probePath tab.cap key) tab.view key with
      | some s => .ok (tab.lookup key, tab.settle s)
      | none => .error .diverges := by
  rw [findHashtable, findSlot_eq tab hcap]
  cases hs : search (probePath tab.cap key) tab.view key with
  | none => rfl
  | some s =>
      have hlook : tab.lookup key = (tab.view s).value? key := lookup_of_search hs
      simp only [ok_bind, settle_bucket, hlook, view]
      rcases tab.bucket s with _ | ⟨_ | k, data⟩
      · rfl
      · rfl
      · rfl

theorem hashNameExists_eq (tab : HashTable α) (hcap : 0 < tab.cap) (key : CString) :
    tab.hashNameExists key =
      match search (probePath tab.cap key) tab.view key with
      | some s => .ok (if (tab.lookup key).isSome then 1 else 0, tab.settle s)
      | none => .error .diverges := by
  rw [hashNameExists, findSlot_eq tab hcap]
  cases hs : search (probePath tab.cap key) tab.view key with
  | none => rfl
  | some s =>
      have hlook : tab.lookup key = (tab.view s).value? key := lookup_of_search hs
      simp only [ok_bind, settle_bucket, hlook, view]
      rcases tab.bucket s with _ | ⟨_ | k, data⟩
      · rfl
      · rfl
      · by_cases hk : k = key <;> simp [nodeBucket, Bucket.value?, hk]

/-- The bucket is marked by its `NULL` key and keeps its node. -/
def bury (tab : HashTable α) (s : ℕ) (data : α) : HashTable α :=
  { tab with
    table := tab.table.set s (some ⟨none, data⟩)
    count := tab.count - 1
    tombstones := tab.tombstones + 1 }

theorem bucket_of_view {tab : HashTable α} {s : ℕ} {key : CString} {data : α}
    (hview : tab.view s = .live key data) : tab.bucket s = some ⟨some key, data⟩ := by
  unfold view at hview
  match hb : tab.bucket s with
  | none => simp [hb, nodeBucket] at hview
  | some ⟨none, _⟩ => simp [hb, nodeBucket] at hview
  | some ⟨some k, v⟩ => simpa [hb, nodeBucket] using hview

theorem bucket_of_free {tab : HashTable α} {s : ℕ} (hfree : (tab.view s).isLive = false) :
    tab.bucket s = none ∨ ∃ data, tab.bucket s = some ⟨none, data⟩ := by
  unfold view at hfree
  match hb : tab.bucket s with
  | none => exact .inl rfl
  | some ⟨none, data⟩ => exact .inr ⟨data, rfl⟩
  | some ⟨some k, v⟩ => simp [hb, nodeBucket, Bucket.isLive] at hfree

/-- Where a search ends there is the key or no key at all. -/
theorem live_or_free {tab : HashTable α} {s : ℕ} {key : CString}
    (hsearch : search (probePath tab.cap key) tab.view key = some s) :
    (∃ data, tab.view s = .live key data) ∨ (tab.view s).isLive = false := by
  cases hview : tab.view s with
  | vacant => exact .inr rfl
  | deleted => exact .inr rfl
  | live k data =>
      obtain ⟨rfl, -⟩ := eq_of_search_live hsearch hview
      exact .inl ⟨data, rfl⟩

theorem insertHashtable_cases {tab tab₁ : HashTable α} (hrehash : tab.rehashTable = .ok tab₁)
    (h₁ : tab₁.Sound) (key : CString) (data : α) :
    ∃ s < tab₁.cap, search (probePath tab₁.cap key) tab₁.view key = some s ∧
      ((∃ v, tab₁.view s = .live key v ∧
          tab.insertHashtable key data = .ok (0, tab₁.settle s)) ∨
        ((tab₁.view s).isLive = false ∧
          tab.insertHashtable key data = .ok (1, (tab₁.settle s).store s key data))) := by
  obtain ⟨s, hs, hsearch, hslot⟩ := h₁.findSlot_spec key
  refine ⟨s, hs, hsearch, ?_⟩
  rw [insertHashtable, hrehash]
  simp only [ok_bind, hslot, settle_bucket]
  rcases live_or_free hsearch with ⟨v, hlive⟩ | hfree
  · exact .inl ⟨v, hlive, by simp only [bucket_of_view hlive]⟩
  · refine .inr ⟨hfree, ?_⟩
    rcases bucket_of_free hfree with hb | ⟨d, hb⟩
    · simp only [hb, HashTable.store]
    · simp only [hb, HashTable.store]

theorem Sound.removeHashtable_cases {tab : HashTable α} (h : tab.Sound) (key : CString) :
    ∃ s < tab.cap, search (probePath tab.cap key) tab.view key = some s ∧
      ((∃ v, tab.view s = .live key v ∧ tab.removeHashtable key = .ok (tab.bury s v)) ∨
        ((tab.view s).isLive = false ∧ tab.removeHashtable key = .ok (tab.settle s))) := by
  obtain ⟨s, hs, hsearch, hslot⟩ := h.findSlot_spec key
  refine ⟨s, hs, hsearch, ?_⟩
  rw [removeHashtable, hslot]
  simp only [ok_bind, settle_bucket]
  rcases live_or_free hsearch with ⟨v, hlive⟩ | hfree
  · refine .inl ⟨v, hlive, ?_⟩
    rw [settle_eq_self (by simp [hlive])]
    simp only [bucket_of_view hlive, if_true, bury]
  · refine .inr ⟨hfree, ?_⟩
    rcases bucket_of_free hfree with hb | ⟨d, hb⟩
    · simp only [hb]
    · simp only [hb]

namespace WellFormed

variable {tab : HashTable α} (h : tab.WellFormed)

include h

theorem find_spec (key : CString) :
    ∃ s, tab.findHashtable key = .ok (tab.lookup key, tab.settle s) := by
  obtain ⟨s, -, hsearch, -⟩ := h.findSlot_spec key
  exact ⟨s, by rw [findHashtable_eq tab h.cap_pos, hsearch]⟩

theorem nameExists_spec (key : CString) :
    ∃ s, tab.hashNameExists key =
      .ok (if (tab.lookup key).isSome then 1 else 0, tab.settle s) := by
  obtain ⟨s, -, hsearch, -⟩ := h.findSlot_spec key
  exact ⟨s, by rw [hashNameExists_eq tab h.cap_pos, hsearch]⟩

theorem insert_spec (key : CString) (data : α) :
    (tab.insertHashtable key data = .error .fatal ∧ 613566757 ≤ tab.count) ∨
      ∃ tab', tab'.WellFormed ∧
        match tab.lookup key with
        | some _ => tab.insertHashtable key data = .ok (0, tab') ∧
            tab'.count = tab.count ∧ tab'.lookup = tab.lookup
        | none => tab.insertHashtable key data = .ok (1, tab') ∧
            tab'.count = tab.count + 1 ∧
            tab'.lookup = Function.update tab.lookup key (some data) := by
  rcases h.rehashTable with ⟨hfatal, hcount⟩ | ⟨tab₁, hrehash, h₁, hcount, hload, hlook⟩
  · left
    rw [insertHashtable, hfatal]
    exact ⟨rfl, hcount⟩
  · right
    rw [← hlook, ← hcount]
    obtain ⟨s, hs, hsearch, ⟨v, hlive, hrun⟩ | ⟨hfree, hrun⟩⟩ :=
      insertHashtable_cases hrehash h₁.sound key data
    · rw [(eq_of_search_live hsearch hlive).2]
      exact ⟨tab₁.settle s, h₁.settle s, hrun, rfl, rfl⟩
    · obtain ⟨hwf, hupd⟩ :=
        (h₁.settle s).store data hs (h₁.sound.room hload) hsearch hfree
      rw [lookup_eq_none_of_free hsearch hfree]
      exact ⟨(tab₁.settle s).store s key data, hwf, hrun, rfl, hupd⟩

/-- What `remove_hashtable` leaves behind: nothing for an absent key, a
tombstone in the bucket of a present one. -/
theorem remove_cases (key : CString) :
    ∃ tab', tab.removeHashtable key = .ok tab' ∧ tab'.cap = tab.cap ∧
      ((tab.lookup key = none ∧ tab'.WellFormed ∧ tab'.lookup = tab.lookup) ∨
        ∃ s data, tab.view s = .live key data ∧
          tab'.view = Function.update tab.view s .deleted ∧
          tab'.table.length = tab'.cap ∧ tab'.count = (pairs tab'.table).length ∧
          tab'.count < tab'.cap) := by
  obtain ⟨s, hs, hsearch, ⟨v, hlive, hrun⟩ | ⟨hfree, hrun⟩⟩ := h.sound.removeHashtable_cases key
  · have hlen : s < tab.table.length := h.length_table ▸ hs
    have hcount := length_pairs_set hlen (some ⟨none, v⟩)
    rw [hlive] at hcount
    simp only [Bucket.isLive, nodeBucket, if_true, Bool.false_eq_true, if_false] at hcount
    have hpos := h.count_eq
    have hlt := h.count_lt
    refine ⟨_, hrun, rfl, .inr ⟨s, v, hlive, view_set (some ⟨none, v⟩) hlen rfl, ?_, ?_, ?_⟩⟩
    · simpa [bury] using h.length_table
    · simp only [bury]
      omega
    · simp only [bury]
      omega
  · exact ⟨_, hrun, rfl, .inl ⟨lookup_eq_none_of_free hsearch hfree, h.settle s, rfl⟩⟩

theorem remove_spec {key : CString} (hsafe : tab.SafeRemoval key) :
    ∃ tab', tab.removeHashtable key = .ok tab' ∧ tab'.WellFormed ∧
      tab'.lookup = Function.update tab.lookup key none := by
  obtain ⟨tab', hrun, hcap, ⟨hnone, hwf, hlook⟩ | ⟨s, data, hlive, hview, hlen, hcount, hlt⟩⟩ :=
    h.remove_cases key
  · refine ⟨tab', hrun, hwf, ?_⟩
    rw [hlook, ← hnone, Function.update_eq_self]
  · have hcut := hsafe s data hlive
    refine ⟨tab', hrun, ⟨?_, ?_, hlen, hcount, hlt, ?_⟩, ?_⟩
    · rw [hcap]
      exact h.cap_pow
    · rw [hcap]
      exact h.cap_le
    · rw [hcap, hview]
      exact h.searchable.delete hcut
    · rw [HashTable.lookup, hcap, hview]
      exact h.searchable.lookup_delete hlive hcut

theorem lookup_lost {key : CString} (hcuts : ¬ tab.SafeRemoval key) :
    ∃ tab' lost data, tab.removeHashtable key = .ok tab' ∧ 0 < tab'.cap ∧ lost ≠ key ∧
      tab.lookup lost = some data ∧ tab'.lookup lost = none := by
  simp only [SafeRemoval, CutsNone, not_forall, not_not] at hcuts
  obtain ⟨s, v, hlive, s', lost, data, hlive', hne, hcut⟩ := hcuts
  have hlost : lost ≠ key := by
    rintro rfl
    exact hne (h.searchable.slot_unique hlive' hlive)
  obtain ⟨tab', hrun, hcap, ⟨hnone, -, -⟩ | ⟨s₀, w, hlive₀, hview, -⟩⟩ := h.remove_cases key
  · have hsome := h.lookup_eq_some_iff.mpr (mem_pairs_iff.mpr ⟨s, hlive⟩)
    simp [hnone] at hsome
  · obtain rfl : s₀ = s := h.searchable.slot_unique hlive₀ hlive
    refine ⟨tab', lost, data, hrun, hcap ▸ h.cap_pos, hlost, ?_, ?_⟩
    · exact h.lookup_eq_some_iff.mpr (mem_pairs_iff.mpr ⟨s', hlive'⟩)
    · rw [HashTable.lookup, hcap, hview]
      exact h.searchable.lookup_cut hlive' hcut

theorem answersAs : tab.AnswersAs tab.lookup := by
  intro call
  cases call with
  | insert key data =>
      rcases h.insert_spec key data with hfatal | ⟨tab', -, hcases⟩
      · left
        simp [perform, hfatal]
      · right
        cases hl : tab.lookup key with
        | none =>
            simp only [hl] at hcases
            exact ⟨tab', by simp [perform, mapPerform, hcases.1, hl]⟩
        | some v =>
            simp only [hl] at hcases
            exact ⟨tab', by simp [perform, mapPerform, hcases.1, hl]⟩
  | find key =>
      obtain ⟨s, hrun⟩ := h.find_spec key
      exact .inr ⟨tab.settle s, by simp [perform, mapPerform, hrun]⟩
  | nameExists key =>
      obtain ⟨s, hrun⟩ := h.nameExists_spec key
      exact .inr ⟨tab.settle s, by simp [perform, mapPerform, hrun]⟩
  | remove key =>
      obtain ⟨tab', hrun, -⟩ := h.remove_cases key
      exact .inr ⟨tab', by simp [perform, mapPerform, hrun]⟩

theorem perform_step {call : Call α} {r : Answer α × HashTable α}
    (hrun : tab.perform call = .ok r)
    (hsafe : ∀ key, call = .remove key → tab.SafeRemoval key) :
    r.2.WellFormed ∧ r.2.lookup = (mapPerform tab.lookup call).2 := by
  cases call with
  | insert key data =>
      rcases h.insert_spec key data with ⟨hfatal, -⟩ | ⟨tab', hwf, hcases⟩
      · simp [perform, hfatal] at hrun
      · cases hl : tab.lookup key with
        | none =>
            simp only [hl] at hcases
            simp only [perform, hcases.1, ok_bind, Except.ok.injEq] at hrun
            subst hrun
            exact ⟨hwf, by simp [mapPerform, hl, hcases.2.2]⟩
        | some v =>
            simp only [hl] at hcases
            simp only [perform, hcases.1, ok_bind, Except.ok.injEq] at hrun
            subst hrun
            exact ⟨hwf, by simp [mapPerform, hl, hcases.2.2]⟩
  | find key =>
      obtain ⟨s, hfind⟩ := h.find_spec key
      simp only [perform, hfind, ok_bind, Except.ok.injEq] at hrun
      subst hrun
      exact ⟨h.settle s, rfl⟩
  | nameExists key =>
      obtain ⟨s, hfind⟩ := h.nameExists_spec key
      simp only [perform, hfind, ok_bind, Except.ok.injEq] at hrun
      subst hrun
      exact ⟨h.settle s, rfl⟩
  | remove key =>
      obtain ⟨tab', hremove, hwf, hlook⟩ := h.remove_spec (hsafe key rfl)
      simp only [perform, hremove, ok_bind, Except.ok.injEq] at hrun
      subst hrun
      exact ⟨hwf, hlook⟩

/-- After such a removal a key is still in the map, and the table no longer finds it. -/
theorem not_answersAs {key : CString} (hcuts : ¬ tab.SafeRemoval key) :
    ∃ tab', tab.perform (.remove key) = .ok (.removed, tab') ∧
      ¬ tab'.AnswersAs (mapPerform tab.lookup (.remove key)).2 := by
  obtain ⟨tab', lost, data, hrun, hcap, hne, hhad, hgone⟩ := h.lookup_lost hcuts
  have hmap : (mapPerform tab.lookup (.remove key)).2 lost = some data := by
    simpa [mapPerform, Function.update_of_ne hne] using hhad
  refine ⟨tab', by simp [perform, hrun], ?_⟩
  intro hanswers
  rcases hanswers (.find lost) with ⟨hfatal, -⟩ | ⟨tab'', hfound⟩
  · rw [perform, findHashtable_eq tab' hcap] at hfatal
    cases hs : search (probePath tab'.cap lost) tab'.view lost <;> simp [hs] at hfatal
  · rw [perform, findHashtable_eq tab' hcap] at hfound
    generalize (mapPerform tab.lookup (.remove key)).2 = m at hmap hfound
    cases hs : search (probePath tab'.cap lost) tab'.view lost <;>
      simp [hs, mapPerform, hmap, hgone] at hfound

end WellFormed

/-! ## Whole runs -/

theorem after_concat_eq_ok {calls : List (Call α)} {call : Call α} {tab' : HashTable α} :
    after (calls ++ [call]) = .ok tab' ↔
      ∃ tab answer, after calls = .ok tab ∧ tab.perform call = .ok (answer, tab') := by
  simp only [after_concat, bind_eq_ok, Except.ok.injEq]
  constructor
  · rintro ⟨tab, htab, ⟨answer, tab''⟩, hrun, rfl⟩
    exact ⟨tab, answer, htab, hrun⟩
  · rintro ⟨tab, answer, htab, hrun⟩
    exact ⟨tab, htab, (answer, tab'), hrun, rfl⟩

theorem isRun_after : IsRun (fun calls (tab : HashTable α) => after calls = .ok tab)
    fun tab call tab' => ∃ answer, tab.perform call = .ok (answer, tab') where
  concat := by
    intro calls call tab'
    rw [after_concat_eq_ok]
    exact ⟨fun ⟨tab, answer, htab, hrun⟩ => ⟨tab, htab, answer, hrun⟩,
      fun ⟨tab, htab, answer, hrun⟩ => ⟨tab, answer, htab, hrun⟩⟩

theorem chainsKept_iff (calls : List (Call α)) :
    ChainsKept calls ↔ ∀ pre call, pre ++ [call] <+: calls → ∀ tab, after pre = .ok tab →
      ∀ key, call = .remove key → tab.SafeRemoval key := by
  constructor
  · rintro h pre call hpre tab htab key rfl
    exact h pre key hpre tab htab
  · intro h pre key hpre tab htab
    exact h pre _ hpre tab htab key rfl

/-- Every call of a run, and every call that could follow it, is answered as
by a map exactly when no removal cuts the path of another key. -/
theorem refinesMap_iff_chainsKept (calls : List (Call α)) :
    RefinesMap calls ↔ ChainsKept calls := by
  rw [chainsKept_iff]
  refine isRun_after.forall_good_iff
    (I := fun pre tab => tab.WellFormed ∧ tab.lookup = mapAfter pre) ?_ ?_ ?_ ?_
  · rintro tab ⟨⟩
    exact ⟨wellFormed_create, lookup_create⟩
  · rintro pre tab ⟨hwf, hlook⟩
    rw [← hlook]
    exact hwf.answersAs
  · rintro pre call tab tab' ⟨hwf, hlook⟩ hsafe ⟨answer, hrun⟩
    rw [mapAfter_concat, ← hlook]
    exact hwf.perform_step hrun hsafe
  · rintro pre call tab ⟨hwf, hlook⟩ hgood key rfl
    by_contra hcuts
    obtain ⟨tab', hrun, hnot⟩ := hwf.not_answersAs hcuts
    have hanswers := hgood tab' ⟨.removed, hrun⟩
    rw [mapAfter_concat, ← hlook] at hanswers
    exact hnot hanswers

/-- `"a"` and `"e"` start at the same bucket; removing the first loses the second. -/
theorem not_refinesMap_remove_first :
    ¬ RefinesMap [.insert ⟨[97], by decide⟩ 1, .insert ⟨[101], by decide⟩ 2,
      .remove ⟨[97], by decide⟩, (.find ⟨[101], by decide⟩ : Call ℕ)] := by
  intro h
  have hrun := h [.insert ⟨[97], by decide⟩ 1, .insert ⟨[101], by decide⟩ 2,
    .remove ⟨[97], by decide⟩] (by simp) _ rfl (.find ⟨[101], by decide⟩)
  rcases hrun with ⟨hfatal, -⟩ | ⟨tab', hfound⟩
  · cases hfatal
  · cases hfound

end SimpleVm.HashTable
