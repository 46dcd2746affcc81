import SimpleVm.Common.HashTermination

/-!
# The counters of the hash table

A key that a removal has cut off can be inserted once more, and then two live
buckets hold it. `rehash_table` counts both and keeps one. The tombstone
counter is lowered by every search that stops at a tombstone, though only an
insertion takes the tombstone away.
-/

namespace SimpleVm.HashTable

open OpenAddressing

universe u

variable {α : Type u}

def liveBuckets (tab : HashTable α) : ℕ :=
  tab.table.countP fun node => (nodeBucket node).isLive

/-- The node is there and its key is `NULL`. -/
def isTombstone : Option (HashNode α) → Bool
  | some ⟨none, _⟩ => true
  | _ => false

@[simp] theorem isTombstone_live (key : CString) (data : α) :
    isTombstone (some ⟨some key, data⟩) = false := rfl

@[simp] theorem isTombstone_null (data : α) :
    isTombstone (some (⟨none, data⟩ : HashNode α)) = true := rfl

def tombstoneBuckets (tab : HashTable α) : ℕ := tab.table.countP isTombstone

def Accounted (tab : HashTable α) : Prop :=
  (∃ e, tab.cap = 2 ^ e) ∧ tab.count = tab.liveBuckets ∧ tab.count < tab.cap

def TombstonesCounted (tab : HashTable α) : Prop := tab.tombstones = tab.tombstoneBuckets

/-- No key is held by two live buckets. -/
def KeysDistinct (tab : HashTable α) : Prop := (keys tab.table).Nodup

/-- The next insertion moves the nodes to a table of twice the size. -/
def Doubles (tab : HashTable α) : Prop := 4 * tab.cap ≤ 7 * tab.count ∧ tab.cap < 2 ^ 30

/-- The path of `key` comes to a tombstone before any empty bucket and before the key. -/
def MeetsTombstone (tab : HashTable α) (key : CString) : Prop :=
  ∃ s ∈ probePath tab.cap key, tab.view s = .deleted ∧
    ∀ x, Before (probePath tab.cap key) x s → (tab.view x).ends key = false

/-- The key that a call other than an insertion searches for. -/
def Call.searched : Call α → Option CString
  | .insert _ _ => none
  | .find key | .nameExists key | .remove key => some key

def Call.isLookup : Call α → Bool
  | .find _ | .nameExists _ => true
  | .insert _ _ | .remove _ => false

def AccountedThroughout (calls : List (Call α)) : Prop :=
  ∀ pre, pre <+: calls → ∀ tab, after pre = .ok tab → tab.Accounted

def DistinctWhenDoubled (calls : List (Call α)) : Prop :=
  ∀ pre key data, pre ++ [.insert key data] <+: calls → ∀ tab, after pre = .ok tab →
    tab.Doubles → tab.KeysDistinct

def TombstonesKept (calls : List (Call α)) : Prop :=
  (∀ pre, pre <+: calls → ∀ tab, after pre = .ok tab → tab.TombstonesCounted) ∧
  ∀ pre call, pre ++ [call] <+: calls → call.isLookup = true → ∀ tab, after pre = .ok tab →
    ∃ answer tab', tab.perform call = .ok (answer, tab') ∧ tab'.tombstones = tab.tombstones

def SearchesMeetNone (calls : List (Call α)) : Prop :=
  ∀ pre call key, pre ++ [call] <+: calls → call.searched = some key →
    ∀ tab, after pre = .ok tab → ¬ tab.MeetsTombstone key

/-! ## The live buckets -/

section Live

variable {tab tab' : HashTable α}

theorem length_pairs_eq (tab : HashTable α) : (pairs tab.table).length = tab.liveBuckets :=
  length_pairs tab.table

@[simp] theorem liveBuckets_settle (tab : HashTable α) (s : ℕ) :
    (tab.settle s).liveBuckets = tab.liveBuckets := rfl

theorem Sound.count_store_eq_iff (h : tab.Sound) {s : ℕ} (key : CString) (data : α)
    (hs : s < tab.cap) (hfree : (tab.view s).isLive = false) :
    (tab.store s key data).count = (tab.store s key data).liveBuckets ↔
      tab.count = tab.liveBuckets := by
  have hpairs := h.length_pairs_store key data hs
  simp only [hfree, Bool.false_eq_true, if_false, length_pairs_eq] at hpairs
  rw [← Nat.add_zero (tab.store s key data).liveBuckets, hpairs]
  exact Nat.add_right_cancel_iff

theorem Sound.count_bury_eq (h : tab.Sound) {s : ℕ} {key : CString} {data : α}
    (hs : s < tab.cap) (hlive : tab.view s = .live key data)
    (hcount : tab.count = tab.liveBuckets) :
    (tab.bury s data).count = (tab.bury s data).liveBuckets := by
  have hpairs := length_pairs_set (h.length_table ▸ hs) (some ⟨none, data⟩)
  rw [hlive] at hpairs
  simp only [Bucket.isLive, nodeBucket, if_true, Bool.false_eq_true, if_false] at hpairs
  have hset : (pairs (tab.table.set s (some ⟨none, data⟩))).length =
      (tab.bury s data).liveBuckets := length_pairs _
  rw [hset, length_pairs_eq] at hpairs
  change tab.count - 1 = _
  omega

/-- What `rehash_table` moves it counts; one bucket is left of each key. -/
theorem Sound.count_rehash_eq_iff (h : tab.Sound) (hdouble : tab.Doubles)
    (hrun : tab.rehashTable = .ok tab') :
    tab'.count = tab'.liveBuckets ↔ tab.KeysDistinct := by
  obtain ⟨hfull, hcap⟩ := hdouble
  rcases h.rehash_cases with ⟨-, hcap', -⟩ | ⟨hload, -⟩ | ⟨-, -, tab₁, hok, h', -, hcount, hlook⟩
  · omega
  · omega
  · obtain rfl : tab₁ = tab' := by simpa [hok] using hrun
    have hlen : (pairs tab.table).length = (keys tab.table).length := by rw [keys, List.length_map]
    rw [hcount, hlen, ← length_pairs_eq, h'.length_pairs hlook, KeysDistinct, keys]
    constructor
    · intro heq
      apply List.dedup_eq_self.mp
      exact (List.dedup_sublist _).eq_of_length heq.symm
    · intro hnodup
      rw [hnodup.dedup]

theorem Sound.rehash_of_not_doubles (h : tab.Sound) (hstay : ¬ tab.Doubles)
    (hrun : tab.rehashTable = .ok tab') : tab' = tab := by
  rcases h.rehash_cases with ⟨-, -, hfatal⟩ | ⟨-, hok⟩ | ⟨hfull, hcap, -⟩
  · simp [hfatal] at hrun
  · simpa [hok] using hrun.symm
  · exact (hstay ⟨hfull, hcap⟩).elim

/-- One call from a table whose counter is right. -/
theorem Sound.count_effect_iff (h : tab.Sound) (hcount : tab.count = tab.liveBuckets)
    {call : Call α} (heffect : tab.Effect call tab') :
    tab'.count = tab'.liveBuckets ↔
      ∀ key data, call = .insert key data → tab.Doubles → tab.KeysDistinct := by
  cases call with
  | insert key data =>
      obtain ⟨tab₁, s, hrehash, hs, -, hcases⟩ := heffect
      have hmoved : tab₁.count = tab₁.liveBuckets ↔ (tab.Doubles → tab.KeysDistinct) := by
        by_cases hdouble : tab.Doubles
        · rw [h.count_rehash_eq_iff hdouble hrehash]
          exact ⟨fun hd _ => hd, fun hd => hd hdouble⟩
        · rw [h.rehash_of_not_doubles hdouble hrehash]
          exact ⟨fun _ hd => (hdouble hd).elim, fun _ => hcount⟩
      have hstored : tab'.count = tab'.liveBuckets ↔ tab₁.count = tab₁.liveBuckets := by
        rcases hcases with ⟨v, -, rfl⟩ | ⟨hfree, rfl⟩
        · exact Iff.rfl
        · exact ((h.rehashTable hrehash).1.settle s).count_store_eq_iff key data hs hfree
      rw [hstored, hmoved]
      exact ⟨fun hd _ _ _ => hd, fun hd => hd key data rfl⟩
  | find key =>
      obtain ⟨s, -, -, rfl⟩ := heffect
      exact ⟨fun _ _ _ hcall => (nomatch hcall), fun _ => hcount⟩
  | nameExists key =>
      obtain ⟨s, -, -, rfl⟩ := heffect
      exact ⟨fun _ _ _ hcall => (nomatch hcall), fun _ => hcount⟩
  | remove key =>
      have hkept : tab'.count = tab'.liveBuckets := by
        obtain ⟨s, hs, -, ⟨v, hlive, rfl⟩ | ⟨-, rfl⟩⟩ := heffect
        · exact h.count_bury_eq hs hlive hcount
        · exact hcount
      exact ⟨fun _ _ _ hcall => (nomatch hcall), fun _ => hkept⟩

theorem Sound.accounted_iff (h : tab.Sound) : tab.Accounted ↔ tab.count = tab.liveBuckets := by
  obtain ⟨e, -, hpow⟩ := h.cap_pow
  exact ⟨fun hacc => hacc.2.1, fun hcount => ⟨⟨e, hpow⟩, hcount, h.count_lt⟩⟩

end Live

theorem distinctWhenDoubled_iff (calls : List (Call α)) :
    DistinctWhenDoubled calls ↔ ∀ pre call, pre ++ [call] <+: calls → ∀ tab, after pre = .ok tab →
      ∀ key data, call = .insert key data → tab.Doubles → tab.KeysDistinct := by
  constructor
  · rintro h pre call hpre tab htab key data rfl
    exact h pre key data hpre tab htab
  · intro h pre key data hpre tab htab
    exact h pre _ hpre tab htab key data rfl

/-- In every state of a run the counter is right, exactly when no insertion of the run
moves two buckets of one key to a larger table. -/
theorem accountedThroughout_iff (calls : List (Call α)) :
    AccountedThroughout calls ↔ DistinctWhenDoubled calls := by
  rw [distinctWhenDoubled_iff]
  refine isRun_after.forall_good_iff (I := fun _ tab => tab.Sound ∧ tab.Accounted) ?_ ?_ ?_ ?_
  · rintro tab ⟨⟩
    exact ⟨wellFormed_create.sound, wellFormed_create.sound.accounted_iff.mpr rfl⟩
  · intro pre tab hcounted
    exact hcounted.2
  · rintro pre call tab tab' ⟨hsound, hacc⟩ hdistinct ⟨answer, hrun⟩
    have heffect := hsound.effect hrun
    have hsound' := hsound.of_effect heffect
    refine ⟨hsound', hsound'.accounted_iff.mpr ?_⟩
    exact (hsound.count_effect_iff hacc.2.1 heffect).mpr hdistinct
  · rintro pre call tab ⟨hsound, hacc⟩ hgood key data rfl hdouble
    rcases hsound.perform_cases (.insert key data) with
      ⟨-, hfatal, -⟩ | ⟨answer, tab', hrun, heffect⟩
    · rcases hsound.rehash_cases with ⟨-, hcap, -⟩ | ⟨-, hok⟩ | ⟨-, -, tab₁, hok, -⟩
      · exact (hdouble.2.not_ge hcap).elim
      · simp [hok] at hfatal
      · simp [hok] at hfatal
    · have hcount := (hgood tab' ⟨answer, hrun⟩).2.1
      exact (hsound.count_effect_iff hacc.2.1 heffect).mp hcount key data rfl hdouble

/-- `"a"` and `"e"` start at the same bucket. Once `"a"` is removed, `"e"` is not found
and is stored a second time; the insertion of the fifth key doubles the table. -/
theorem not_accountedThroughout_reinsert :
    ¬ AccountedThroughout [.insert ⟨[97], by decide⟩ 1, .insert ⟨[101], by decide⟩ 2,
      .remove ⟨[97], by decide⟩, .insert ⟨[101], by decide⟩ 3, .insert ⟨[98], by decide⟩ 4,
      (.insert ⟨[99], by decide⟩ 5 : Call ℕ)] := by
  intro h
  have hrun : (after [.insert ⟨[97], by decide⟩ 1, .insert ⟨[101], by decide⟩ 2,
      .remove ⟨[97], by decide⟩, .insert ⟨[101], by decide⟩ 3, .insert ⟨[98], by decide⟩ 4,
      (.insert ⟨[99], by decide⟩ 5 : Call ℕ)]).map (fun tab => (tab.count, tab.liveBuckets)) =
      .ok (4, 3) := by
    decide
  obtain ⟨tab, htab⟩ := exists_of_isOk (x := after [.insert ⟨[97], by decide⟩ 1,
    .insert ⟨[101], by decide⟩ 2, .remove ⟨[97], by decide⟩, .insert ⟨[101], by decide⟩ 3,
    .insert ⟨[98], by decide⟩ 4, (.insert ⟨[99], by decide⟩ 5 : Call ℕ)]) (by decide)
  have hcount := (h _ List.prefix_rfl tab htab).2.1
  rw [htab] at hrun
  obtain ⟨hfour, hthree⟩ := Prod.ext_iff.mp (Except.ok.inj hrun)
  simp only at hfour hthree
  omega

/-! ## The tombstones -/

section Tombstones

variable {tab tab' : HashTable α}

theorem isTombstone_eq_true {node : Option (HashNode α)} :
    isTombstone node = true ↔ nodeBucket node = .deleted := by
  match node with
  | none => simp [isTombstone, nodeBucket]
  | some ⟨none, _⟩ => simp [isTombstone, nodeBucket]
  | some ⟨some _, _⟩ => simp [isTombstone, nodeBucket]

theorem tombstoneBuckets_set {s : ℕ} (hs : s < tab.table.length) (node : Option (HashNode α)) :
    (tab.table.set s node).countP isTombstone + (if isTombstone (tab.bucket s) then 1 else 0) =
      tab.tombstoneBuckets + if isTombstone node then 1 else 0 := by
  rw [bucket_of_lt hs]
  exact countP_set_add isTombstone hs node

theorem settle_tombstones (tab : HashTable α) (s : ℕ) :
    (tab.settle s).tombstones =
      tab.tombstones - if isTombstone (tab.bucket s) then 1 else 0 := by
  unfold HashTable.settle view
  match tab.bucket s with
  | none => simp [nodeBucket, isTombstone]
  | some ⟨none, _⟩ => simp [nodeBucket, isTombstone]
  | some ⟨some _, _⟩ => simp [nodeBucket, isTombstone]

theorem meetsTombstone_iff {key : CString} {s : ℕ}
    (hsearch : search (probePath tab.cap key) tab.view key = some s) :
    tab.MeetsTombstone key ↔ isTombstone (tab.bucket s) = true := by
  rw [isTombstone_eq_true]
  constructor
  · rintro ⟨s', hmem, hdel, hbefore⟩
    have hfound : search (probePath tab.cap key) tab.view key = some s' :=
      search_eq_some_iff.mpr ⟨hmem, by simp [hdel], hbefore⟩
    obtain rfl : s = s' := Option.some.inj (hsearch.symm.trans hfound)
    exact hdel
  · intro hdel
    obtain ⟨hmem, -, hbefore⟩ := search_eq_some_iff.mp hsearch
    exact ⟨s, hmem, hdel, hbefore⟩

theorem Sound.tombstonesCounted_store (h : tab.Sound) {s : ℕ} (key : CString) (data : α)
    (hs : s < tab.cap) (hcounted : tab.TombstonesCounted) :
    ((tab.settle s).store s key data).TombstonesCounted := by
  have hset := tombstoneBuckets_set (h.length_table ▸ hs) (some ⟨some key, data⟩)
  simp only [isTombstone_live, Bool.false_eq_true, if_false, Nat.add_zero] at hset
  have hsettle := settle_tombstones tab s
  unfold TombstonesCounted at hcounted ⊢
  change (tab.settle s).tombstones = ((tab.table.set s _).countP isTombstone : ℕ)
  rw [hsettle, hcounted, ← hset]
  split
  · push_cast
    omega
  · push_cast
    omega

theorem Filling.tombstonesCounted (h : tab.Filling) : tab.TombstonesCounted := by
  rw [TombstonesCounted, h.tombstones_eq, tombstoneBuckets, eq_comm, Nat.cast_eq_zero,
    List.countP_eq_zero]
  intro node hnode hdel
  obtain ⟨i, hi, rfl⟩ := List.mem_iff_getElem.mp hnode
  apply h.view_ne_deleted i
  rw [view, bucket_of_lt hi]
  exact isTombstone_eq_true.mp hdel

theorem Sound.tombstonesCounted_rehash (h : tab.Sound) (hcounted : tab.TombstonesCounted)
    (hrun : tab.rehashTable = .ok tab') : tab'.TombstonesCounted := by
  rcases h.rehash_cases with ⟨-, -, hfatal⟩ | ⟨-, hok⟩ | ⟨-, -, tab₁, hok, h', -⟩
  · simp [hfatal] at hrun
  · obtain rfl : tab = tab' := by simpa [hok] using hrun
    exact hcounted
  · obtain rfl : tab₁ = tab' := by simpa [hok] using hrun
    exact h'.tombstonesCounted

theorem Sound.tombstonesCounted_bury (h : tab.Sound) {s : ℕ} {key : CString} {data : α}
    (hs : s < tab.cap) (hlive : tab.view s = .live key data) (hcounted : tab.TombstonesCounted) :
    (tab.bury s data).TombstonesCounted := by
  have hset := tombstoneBuckets_set (h.length_table ▸ hs) (some ⟨none, data⟩)
  rw [bucket_of_view hlive] at hset
  simp only [isTombstone_live, isTombstone_null, Bool.false_eq_true, if_false, if_true,
    Nat.add_zero] at hset
  unfold TombstonesCounted at hcounted ⊢
  change tab.tombstones + 1 = ((tab.table.set s _).countP isTombstone : ℕ)
  rw [hset, hcounted]
  push_cast
  rfl

theorem settle_tombstonesCounted_iff {key : CString} {s : ℕ} (hcounted : tab.TombstonesCounted)
    (hsearch : search (probePath tab.cap key) tab.view key = some s) :
    (tab.settle s).TombstonesCounted ↔ ¬ tab.MeetsTombstone key := by
  rw [meetsTombstone_iff hsearch, TombstonesCounted, settle_tombstones, hcounted]
  change (tab.tombstoneBuckets : ℤ) - _ = tab.tombstoneBuckets ↔ _
  by_cases hdel : isTombstone (tab.bucket s) = true
  · simp [hdel]
  · simp [hdel]

theorem not_meetsTombstone_of_live {key : CString} {s : ℕ} {data : α}
    (hsearch : search (probePath tab.cap key) tab.view key = some s)
    (hlive : tab.view s = .live key data) : ¬ tab.MeetsTombstone key := by
  rw [meetsTombstone_iff hsearch, bucket_of_view hlive]
  simp

/-- One call from a table whose tombstones are counted. -/
theorem Sound.tombstones_effect_iff (h : tab.Sound) (hcounted : tab.TombstonesCounted)
    {call : Call α} (heffect : tab.Effect call tab') :
    tab'.TombstonesCounted ↔ ∀ key, call.searched = some key → ¬ tab.MeetsTombstone key := by
  cases call with
  | insert key data =>
      have hkept : tab'.TombstonesCounted := by
        obtain ⟨tab₁, s, hrehash, hs, -, ⟨v, -, rfl⟩ | ⟨-, rfl⟩⟩ := heffect
        · exact h.tombstonesCounted_rehash hcounted hrehash
        · apply (h.rehashTable hrehash).1.tombstonesCounted_store key data hs
          exact h.tombstonesCounted_rehash hcounted hrehash
      exact ⟨fun _ _ hcall => (nomatch hcall), fun _ => hkept⟩
  | find key =>
      obtain ⟨s, -, hsearch, rfl⟩ := heffect
      simp [Call.searched, settle_tombstonesCounted_iff hcounted hsearch]
  | nameExists key =>
      obtain ⟨s, -, hsearch, rfl⟩ := heffect
      simp [Call.searched, settle_tombstonesCounted_iff hcounted hsearch]
  | remove key =>
      obtain ⟨s, hs, hsearch, ⟨v, hlive, rfl⟩ | ⟨-, rfl⟩⟩ := heffect
      · simp [Call.searched, h.tombstonesCounted_bury hs hlive hcounted,
          not_meetsTombstone_of_live hsearch hlive]
      · simp [Call.searched, settle_tombstonesCounted_iff hcounted hsearch]

end Tombstones

theorem searchesMeetNone_iff (calls : List (Call α)) :
    SearchesMeetNone calls ↔ ∀ pre call, pre ++ [call] <+: calls → ∀ tab, after pre = .ok tab →
      ∀ key, call.searched = some key → ¬ tab.MeetsTombstone key := by
  constructor
  · intro h pre call hpre tab htab key hkey
    exact h pre call key hpre hkey tab htab
  · intro h pre call key hpre hkey tab htab
    exact h pre call hpre tab htab key hkey

theorem tombstonesCounted_iff (calls : List (Call α)) :
    (∀ pre, pre <+: calls → ∀ tab, after pre = .ok tab → tab.TombstonesCounted) ↔
      SearchesMeetNone calls := by
  rw [searchesMeetNone_iff]
  refine isRun_after.forall_good_iff
    (I := fun _ tab => tab.Sound ∧ tab.TombstonesCounted) ?_ ?_ ?_ ?_
  · rintro tab ⟨⟩
    exact ⟨wellFormed_create.sound, rfl⟩
  · intro pre tab hcounted
    exact hcounted.2
  · rintro pre call tab tab' ⟨hsound, hcounted⟩ hmeets ⟨answer, hrun⟩
    have heffect := hsound.effect hrun
    exact ⟨hsound.of_effect heffect, (hsound.tombstones_effect_iff hcounted heffect).mpr hmeets⟩
  · rintro pre call tab ⟨hsound, hcounted⟩ hgood key hkey
    rcases hsound.perform_cases call with ⟨⟨key, data, rfl⟩, -⟩ | ⟨answer, tab', hrun, heffect⟩
    · simp [Call.searched] at hkey
    · have hnext := hgood tab' ⟨answer, hrun⟩
      exact (hsound.tombstones_effect_iff hcounted heffect).mp hnext key hkey

theorem SearchesMeetNone.lookup {calls : List (Call α)} (h : SearchesMeetNone calls)
    {pre : List (Call α)} {call : Call α} (hpre : pre ++ [call] <+: calls)
    (hlookup : call.isLookup = true) {tab : HashTable α} (htab : after pre = .ok tab) :
    ∃ answer tab', tab.perform call = .ok (answer, tab') ∧ tab'.tombstones = tab.tombstones := by
  have hunchanged : ∀ key s, call.searched = some key →
      search (probePath tab.cap key) tab.view key = some s →
        (tab.settle s).tombstones = tab.tombstones := by
    intro key s hkey hsearch
    have hmeets := h pre call key hpre hkey tab htab
    rw [meetsTombstone_iff hsearch] at hmeets
    simp [settle_tombstones, hmeets]
  rcases (sound_after htab).perform_cases call with
    ⟨⟨key, data, rfl⟩, -⟩ | ⟨answer, tab', hrun, heffect⟩
  · simp [Call.isLookup] at hlookup
  · refine ⟨answer, tab', hrun, ?_⟩
    cases call with
    | insert key data => simp [Call.isLookup] at hlookup
    | find key =>
        obtain ⟨s, -, hsearch, rfl⟩ := heffect
        exact hunchanged key s rfl hsearch
    | nameExists key =>
        obtain ⟨s, -, hsearch, rfl⟩ := heffect
        exact hunchanged key s rfl hsearch
    | remove key => simp [Call.isLookup] at hlookup

/-- In every state of a run the tombstones are counted, exactly when no lookup and no
removal of the run comes to a tombstone. -/
theorem tombstonesKept_iff (calls : List (Call α)) :
    TombstonesKept calls ↔ SearchesMeetNone calls := by
  constructor
  · rintro ⟨hcounted, -⟩
    exact (tombstonesCounted_iff calls).mp hcounted
  · intro h
    refine ⟨(tombstonesCounted_iff calls).mpr h, ?_⟩
    intro pre call hpre hlookup tab htab
    exact h.lookup hpre hlookup htab

/-- A lookup of the removed key lowers the counter, and the tombstone stays. -/
theorem not_tombstonesKept_find_removed :
    ¬ TombstonesKept [.insert ⟨[97], by decide⟩ 1, .remove ⟨[97], by decide⟩,
      (.find ⟨[97], by decide⟩ : Call ℕ)] := by
  rintro ⟨hcounted, -⟩
  have hrun : (after [.insert ⟨[97], by decide⟩ 1, .remove ⟨[97], by decide⟩,
      (.find ⟨[97], by decide⟩ : Call ℕ)]).map (fun tab => (tab.tombstones, tab.tombstoneBuckets)) =
      .ok (0, 1) := by
    decide
  obtain ⟨tab, htab⟩ := exists_of_isOk (x := after [.insert ⟨[97], by decide⟩ 1,
    .remove ⟨[97], by decide⟩, (.find ⟨[97], by decide⟩ : Call ℕ)]) (by decide)
  have hone := hcounted _ List.prefix_rfl tab htab
  rw [htab] at hrun
  obtain ⟨hzero, hbuckets⟩ := Prod.ext_iff.mp (Except.ok.inj hrun)
  simp only [TombstonesCounted] at hzero hbuckets hone
  omega

end SimpleVm.HashTable
