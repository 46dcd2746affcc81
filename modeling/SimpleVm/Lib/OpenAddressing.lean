import Mathlib.Data.List.TakeWhile
import Mathlib.Logic.Function.Basic

/-!
# Open addressing over probe paths

A table sends slots to buckets, and every key has a finite path of slots
along which it is searched. The probe function, the number of slots and
the order of the path are arbitrary. What keeps the table a map is that
the search of a stored key ends at the bucket that stores it.
-/

namespace OpenAddressing

universe u v w

variable {κ : Type u} {σ : Type v} {α : Type w} [DecidableEq κ] [DecidableEq σ]

/-- The content of one slot. A deleted bucket may be used again. -/
inductive Bucket (κ : Type u) (α : Type w) where
  | vacant
  | deleted
  | live (key : κ) (value : α)

namespace Bucket

/-- A search for `k` stops at every bucket that does not hold another key. -/
def ends (k : κ) : Bucket κ α → Bool
  | .live k' _ => decide (k' = k)
  | _ => true

def value? (k : κ) : Bucket κ α → Option α
  | .live k' v => if k' = k then some v else none
  | _ => none

def isLive : Bucket κ α → Bool
  | .live _ _ => true
  | _ => false

@[simp] theorem ends_vacant (k : κ) : (vacant : Bucket κ α).ends k = true := rfl

@[simp] theorem ends_deleted (k : κ) : (deleted : Bucket κ α).ends k = true := rfl

@[simp] theorem ends_live (k k' : κ) (v : α) : (live k' v).ends k = decide (k' = k) := rfl

@[simp] theorem value?_vacant (k : κ) : (vacant : Bucket κ α).value? k = none := rfl

@[simp] theorem value?_deleted (k : κ) : (deleted : Bucket κ α).value? k = none := rfl

@[simp] theorem value?_live_self (k : κ) (v : α) : (live k v).value? k = some v := by
  simp [value?]

theorem value?_eq_some {k : κ} {b : Bucket κ α} {v : α} :
    b.value? k = some v ↔ b = live k v := by
  cases b with
  | vacant => simp
  | deleted => simp
  | live k' v' =>
      by_cases h : k' = k
      · subst h
        simp
      · simp [value?, h]

theorem ends_of_not_live {b : Bucket κ α} (h : b.isLive = false) (k : κ) : b.ends k = true := by
  cases b <;> simp_all [isLive]

end Bucket

/-- The first slot of `path` at which a search for `k` stops. -/
def search (path : List σ) (t : σ → Bucket κ α) (k : κ) : Option σ :=
  path.find? fun s => (t s).ends k

def lookup (path : κ → List σ) (t : σ → Bucket κ α) (k : κ) : Option α :=
  (search (path k) t k).bind fun s => (t s).value? k

/-- Every stored key is where its own search ends. -/
def Searchable (path : κ → List σ) (t : σ → Bucket κ α) : Prop :=
  ∀ s k v, t s = .live k v → search (path k) t k = some s

/-- Slot `s` is probed for some key before that key's own slot `s'`. -/
def Before (path : List σ) (s s' : σ) : Prop :=
  s ∈ path.takeWhile fun x => decide (x ≠ s')

instance (path : List σ) (s s' : σ) : Decidable (Before path s s') :=
  inferInstanceAs (Decidable (_ ∈ _))

variable {path : κ → List σ} {t t' : σ → Bucket κ α}

theorem search_eq_some_iff {p : List σ} {k : κ} {s : σ} :
    search p t k = some s ↔
      s ∈ p ∧ (t s).ends k = true ∧ ∀ x, Before p x s → (t x).ends k = false := by
  induction p with
  | nil => simp [search]
  | cons a p ih =>
      by_cases has : a = s
      · subst has
        have hpre : ∀ x, ¬ Before (a :: p) x a := by simp [Before]
        cases ha : (t a).ends k with
        | true => simp [search, ha, hpre]
        | false =>
            simp only [Bool.false_eq_true, false_and, and_false, iff_false]
            intro hfind
            simp [List.find?_some hfind] at ha
      · cases ha : (t a).ends k with
        | true =>
            have hbefore : Before (a :: p) a s := by simp [Before, has]
            have hne : search (a :: p) t k ≠ some s := by simp [search, ha, has]
            constructor
            · exact fun h => (hne h).elim
            · rintro ⟨-, -, hall⟩
              simp [hall a hbefore] at ha
        | false =>
            have hstep : search (a :: p) t k = search p t k := by simp [search, ha]
            rw [hstep, ih]
            have hmem : s ∈ a :: p ↔ s ∈ p := by simp [Ne.symm has]
            have hbefore : ∀ x, Before (a :: p) x s ↔ x = a ∨ Before p x s := by
              simp [Before, has]
            constructor
            · rintro ⟨hs, hend, hall⟩
              refine ⟨hmem.mpr hs, hend, ?_⟩
              intro x hx
              rcases (hbefore x).mp hx with rfl | hx
              · exact ha
              · exact hall x hx
            · rintro ⟨hs, hend, hall⟩
              exact ⟨hmem.mp hs, hend, fun x hx => hall x ((hbefore x).mpr (Or.inr hx))⟩

theorem search_of_before {p : List σ} {k : κ} {s : σ} (h : search p t k = some s)
    (hs : (t' s).ends k = true) (hpre : ∀ x, Before p x s → (t' x).ends k = false) :
    search p t' k = some s :=
  search_eq_some_iff.mpr ⟨(search_eq_some_iff.mp h).1, hs, hpre⟩

theorem not_before_self (p : List σ) (s : σ) : ¬ Before p s s := by
  intro h
  simpa using List.mem_takeWhile_imp h

omit [DecidableEq σ] in
theorem exists_search {p : List σ} {k : κ} {s : σ} (hs : s ∈ p)
    (hend : (t s).ends k = true) : ∃ s', search p t k = some s' := by
  cases h : search p t k with
  | some s' => exact ⟨s', rfl⟩
  | none => simpa [hend] using List.find?_eq_none.mp h s hs

/-! ## Lookups in a searchable table -/

section Lookup

omit [DecidableEq σ]

theorem lookup_of_search {k : κ} {s : σ} (hs : search (path k) t k = some s) :
    lookup path t k = (t s).value? k := by
  simp [lookup, hs]

theorem Searchable.lookup_eq_some_iff (h : Searchable path t) {k : κ} {v : α} :
    lookup path t k = some v ↔ ∃ s, t s = .live k v := by
  constructor
  · intro hl
    obtain ⟨s, -, hv⟩ := Option.bind_eq_some_iff.mp hl
    exact ⟨s, Bucket.value?_eq_some.mp hv⟩
  · rintro ⟨s, hs⟩
    rw [lookup_of_search (h s k v hs), hs, Bucket.value?_live_self]

theorem Searchable.slot_unique (h : Searchable path t) {s s' : σ} {k : κ} {v v' : α}
    (hs : t s = .live k v) (hs' : t s' = .live k v') : s = s' :=
  Option.some.inj ((h s k v hs).symm.trans (h s' k v' hs'))

theorem Searchable.lookup_eq_none_iff (h : Searchable path t) {k : κ} :
    lookup path t k = none ↔ ∀ s v, t s ≠ .live k v := by
  rw [Option.eq_none_iff_forall_ne_some]
  constructor
  · intro hl s v hs
    exact hl v (h.lookup_eq_some_iff.mpr ⟨s, hs⟩)
  · intro hall v hv
    obtain ⟨s, hs⟩ := h.lookup_eq_some_iff.mp hv
    exact hall s v hs

theorem Searchable.lookup_congr {path' : κ → List σ} (h : Searchable path t)
    (h' : Searchable path' t') {k : κ}
    (hiff : ∀ v, (∃ s, t s = .live k v) ↔ ∃ s, t' s = .live k v) :
    lookup path t k = lookup path' t' k := by
  apply Option.ext
  intro v
  rw [h.lookup_eq_some_iff, h'.lookup_eq_some_iff, hiff]

theorem searchable_vacant : Searchable path (fun _ => (.vacant : Bucket κ α)) := by
  intro s k v h
  cases h

theorem lookup_vacant (k : κ) : lookup path (fun _ => (.vacant : Bucket κ α)) k = none :=
  searchable_vacant.lookup_eq_none_iff.mpr fun _ _ h => by cases h

end Lookup

/-! ## Storing a key where its search ended -/

theorem Searchable.put (h : Searchable path t) {k : κ} {s : σ} (v : α)
    (hs : search (path k) t k = some s) :
    Searchable path (Function.update t s (.live k v)) := by
  intro s' k' v' hlive
  by_cases hss : s' = s
  · subst hss
    obtain ⟨rfl, rfl⟩ : k = k' ∧ v = v' := by simpa using hlive
    apply search_of_before hs (by simp)
    intro x hx
    have hne : x ≠ s' := fun he => not_before_self _ _ (he ▸ hx)
    simpa [hne] using (search_eq_some_iff.mp hs).2.2 x hx
  · have hold : t s' = .live k' v' := by simpa [hss] using hlive
    have hfound := h s' k' v' hold
    apply search_of_before hfound (by simp [hss, hold])
    intro x hx
    by_cases hxs : x = s
    · subst hxs
      have hkk : k ≠ k' := by
        rintro rfl
        exact hss (Option.some.inj (hfound.symm.trans hs))
      simpa using hkk
    · simpa [hxs] using (search_eq_some_iff.mp hfound).2.2 x hx

theorem Searchable.lookup_put (h : Searchable path t) {k : κ} {s : σ} (v : α)
    (hs : search (path k) t k = some s) :
    lookup path (Function.update t s (.live k v)) =
      Function.update (lookup path t) k (some v) := by
  have hput := h.put v hs
  funext k'
  by_cases hk : k' = k
  · subst hk
    rw [Function.update_self, hput.lookup_eq_some_iff]
    exact ⟨s, by simp⟩
  · rw [Function.update_of_ne hk]
    apply Searchable.lookup_congr hput h
    intro v'
    constructor
    · rintro ⟨s', hs'⟩
      by_cases hss : s' = s
      · subst hss
        have hkv : k = k' ∧ v = v' := by simpa using hs'
        exact (hk hkv.1.symm).elim
      · exact ⟨s', by simpa [hss] using hs'⟩
    · rintro ⟨s', hs'⟩
      have hss : s' ≠ s := by
        rintro rfl
        have hend := (search_eq_some_iff.mp hs).2.1
        simp [hs'] at hend
        exact hk hend
      exact ⟨s', by simpa [hss] using hs'⟩

/-! ## Deleting a key -/

/-- Deleting the bucket at `s` cuts no other stored key off its path. -/
def CutsNone (path : κ → List σ) (t : σ → Bucket κ α) (s : σ) : Prop :=
  ∀ s' k' v', t s' = .live k' v' → s' ≠ s → ¬ Before (path k') s s'

theorem Searchable.delete (h : Searchable path t) {s : σ} (hcut : CutsNone path t s) :
    Searchable path (Function.update t s .deleted) := by
  intro s' k' v' hlive
  have hss : s' ≠ s := by
    rintro rfl
    simp at hlive
  have hold : t s' = .live k' v' := by simpa [hss] using hlive
  have hfound := h s' k' v' hold
  apply search_of_before hfound (by simp [hss, hold])
  intro x hx
  have hxs : x ≠ s := by
    rintro rfl
    exact hcut s' k' v' hold hss hx
  simpa [hxs] using (search_eq_some_iff.mp hfound).2.2 x hx

theorem Searchable.lookup_delete (h : Searchable path t) {k : κ} {s : σ} {v : α}
    (hs : t s = .live k v) (hcut : CutsNone path t s) :
    lookup path (Function.update t s .deleted) = Function.update (lookup path t) k none := by
  have hdel := h.delete hcut
  funext k'
  by_cases hk : k' = k
  · subst hk
    rw [Function.update_self, hdel.lookup_eq_none_iff]
    intro s' v' hs'
    by_cases hss : s' = s
    · simp [hss] at hs'
    · exact hss (h.slot_unique (by simpa [hss] using hs') hs)
  · rw [Function.update_of_ne hk]
    apply Searchable.lookup_congr hdel h
    intro v'
    constructor
    · rintro ⟨s', hs'⟩
      by_cases hss : s' = s
      · simp [hss] at hs'
      · exact ⟨s', by simpa [hss] using hs'⟩
    · rintro ⟨s', hs'⟩
      have hss : s' ≠ s := by
        rintro rfl
        have hkv : k' = k ∧ v' = v := by simpa [hs'] using hs
        exact hk hkv.1
      exact ⟨s', by simpa [hss] using hs'⟩

/-- A key cut off by a deletion is still stored and no longer found. -/
theorem Searchable.lookup_cut (h : Searchable path t) {s s' : σ} {k' : κ} {v' : α}
    (hs' : t s' = .live k' v') (hcut : Before (path k') s s') :
    lookup path (Function.update t s .deleted) k' = none := by
  have hss : s' ≠ s := fun he => not_before_self _ _ (he ▸ hcut)
  cases hfind : search (path k') (Function.update t s .deleted) k' with
  | none => simp [lookup, hfind]
  | some x =>
      rw [lookup_of_search hfind]
      have hx := search_eq_some_iff.mp hfind
      have hxs' : x ≠ s' := by
        rintro rfl
        have hpass := hx.2.2 s hcut
        simp at hpass
      by_cases hxs : x = s
      · simp [hxs]
      · cases hval : (Function.update t s .deleted x).value? k' with
        | none => rfl
        | some w =>
            have hlive : t x = .live k' w := by
              simpa [hxs] using Bucket.value?_eq_some.mp hval
            exact (hxs' (h.slot_unique hlive hs')).elim

/-! ## Storing a list of keys -/

section PutAll

omit [DecidableEq σ]

def putAll (m : κ → Option α) (l : List (κ × α)) : κ → Option α :=
  l.foldl (fun m p => Function.update m p.1 (some p.2)) m

@[simp] theorem putAll_nil (m : κ → Option α) : putAll m [] = m := rfl

@[simp] theorem putAll_cons (m : κ → Option α) (p : κ × α) (l : List (κ × α)) :
    putAll m (p :: l) = putAll (Function.update m p.1 (some p.2)) l := rfl

theorem isSome_putAll_iff {m : κ → Option α} {l : List (κ × α)} {k : κ} :
    (putAll m l k).isSome ↔ (m k).isSome ∨ k ∈ l.map Prod.fst := by
  induction l generalizing m with
  | nil => simp
  | cons p l ih =>
      rw [putAll_cons, ih, List.map_cons, List.mem_cons]
      by_cases hk : k = p.1
      · simp [hk]
      · simp [hk]

theorem putAll_eq_some_iff {m : κ → Option α} {l : List (κ × α)} {k : κ} {v : α}
    (hnodup : (l.map Prod.fst).Nodup) (hm : ∀ p ∈ l, m p.1 = none) :
    putAll m l k = some v ↔ m k = some v ∨ (k, v) ∈ l := by
  induction l generalizing m with
  | nil => simp
  | cons p l ih =>
      obtain ⟨hp, hl⟩ := List.nodup_cons.mp hnodup
      have hfresh : ∀ q ∈ l, Function.update m p.1 (some p.2) q.1 = none := by
        intro q hq
        have hne : q.1 ≠ p.1 := fun he => hp (he ▸ List.mem_map_of_mem hq)
        rw [Function.update_of_ne hne]
        exact hm q (List.mem_cons_of_mem _ hq)
      rw [putAll_cons, ih hl hfresh, List.mem_cons]
      by_cases hk : k = p.1
      · have hnone : m p.1 = none := hm p List.mem_cons_self
        have hmem : (p.1, v) ∉ l := fun h => hp (List.mem_map.mpr ⟨_, h, rfl⟩)
        simp [hk, hnone, hmem, Prod.ext_iff, eq_comm]
      · simp [hk, Prod.ext_iff]

end PutAll

end OpenAddressing
