import Mathlib.Algebra.Order.Group.Nat
import Mathlib.Data.Nat.Bitwise
import Mathlib.Tactic.Linarith
import SimpleVm.Common.Hash
import SimpleVm.Lib.OpenAddressing

/-!
# The probe loop as a search along a path

The two rounds of `find_slot` visit a fixed list of buckets that depends on
the capacity and the key only. The slot it returns is the first one of that
list at which a search for the key ends, and the second round covers the
whole table.
-/

namespace SimpleVm.HashTable

open OpenAddressing

universe u

variable {α : Type u}

def nodeBucket : Option (HashNode α) → Bucket CString α
  | none => .vacant
  | some ⟨none, _⟩ => .deleted
  | some ⟨some key, data⟩ => .live key data

def view (tab : HashTable α) (i : ℕ) : Bucket CString α := nodeBucket (tab.bucket i)

/-- The buckets that `n` turns of the loop look at, from `hash` on. -/
def walk (cap inc : ℕ) : ℕ → ℕ → List ℕ
  | 0, _ => []
  | n + 1, hash => hash :: walk cap inc n ((hash + inc) &&& (cap - 1))

def walkEnd (cap inc : ℕ) : ℕ → ℕ → ℕ
  | 0, hash => hash
  | n + 1, hash => walkEnd cap inc n ((hash + inc) &&& (cap - 1))

def probeHash (cap : ℕ) (key : CString) : ℕ := (hashFunc key).toNat &&& (cap - 1)

def probeInc (cap : ℕ) (key : CString) : ℕ :=
  if probeHash cap key &&& 0x0F = 0 then 1 else probeHash cap key &&& 0x0F

def probePath (cap : ℕ) (key : CString) : List ℕ :=
  walk cap (probeInc cap key) cap (probeHash cap key) ++
    walk cap 1 cap (walkEnd cap (probeInc cap key) cap (probeHash cap key))

/-- The tombstone counter after a search that stopped at bucket `i`. -/
def settle (tab : HashTable α) (i : ℕ) : HashTable α :=
  { tab with
    tombstones := match tab.view i with
      | .deleted => tab.tombstones - 1
      | _ => tab.tombstones }

section Settle

variable (tab : HashTable α) (i : ℕ)

@[simp] theorem settle_table : (tab.settle i).table = tab.table := rfl

@[simp] theorem settle_cap : (tab.settle i).cap = tab.cap := rfl

@[simp] theorem settle_count : (tab.settle i).count = tab.count := rfl

@[simp] theorem settle_bucket (j : ℕ) : (tab.settle i).bucket j = tab.bucket j := rfl

end Settle

theorem forLoop_eq (tab : HashTable α) (key : CString) (inc n hash : ℕ) :
    tab.forLoop key inc n hash =
      match search (walk tab.cap inc n hash) tab.view key with
      | some s => .slot s (tab.settle s).tombstones
      | none => .exhausted (walkEnd tab.cap inc n hash) := by
  induction n generalizing hash with
  | zero => rfl
  | succ n ih =>
      unfold forLoop
      rcases hb : tab.bucket hash with _ | ⟨_ | k, data⟩
      · simp [search, walk, view, nodeBucket, hb, settle]
      · simp [search, walk, view, nodeBucket, hb, settle]
      · by_cases hk : k = key
        · simp [search, walk, view, nodeBucket, hb, settle, hk]
        · have hstep : search (walk tab.cap inc (n + 1) hash) tab.view key =
              search (walk tab.cap inc n ((hash + inc) &&& (tab.cap - 1))) tab.view key := by
            simp [search, walk, view, nodeBucket, hb, hk]
          rw [hstep]
          simp only [hk, if_false]
          exact ih _

theorem search_append (p q : List ℕ) (t : ℕ → Bucket CString α) (key : CString) :
    search (p ++ q) t key = (search p t key).or (search q t key) := by
  simp [search, List.find?_append]

theorem findSlot_eq (tab : HashTable α) (hcap : 0 < tab.cap) (key : CString) :
    tab.findSlot key =
      match search (probePath tab.cap key) tab.view key with
      | some s => .ok (s, tab.settle s)
      | none => .error .diverges := by
  obtain ⟨n, hn⟩ : ∃ n, tab.cap = n + 1 := ⟨tab.cap - 1, by omega⟩
  have hloop : tab.doLoop key 2 (probeInc tab.cap key) (probeHash tab.cap key) =
      match search (probePath tab.cap key) tab.view key with
      | some s => .ok (s, tab.settle s)
      | none => .error .diverges := by
    simp only [doLoop, forLoop_eq, probePath, search_append]
    cases search (walk tab.cap (probeInc tab.cap key) tab.cap (probeHash tab.cap key))
        tab.view key with
    | some s => rfl
    | none =>
        simp only [Option.none_or]
        cases search (walk tab.cap 1 tab.cap
          (walkEnd tab.cap (probeInc tab.cap key) tab.cap (probeHash tab.cap key))) tab.view key with
        | some s => rfl
        | none => rfl
  cases hb : tab.bucket (probeHash tab.cap key) with
  | none =>
      -- the test before the loop is the first turn of the loop made early
      have hfirst : search (probePath tab.cap key) tab.view key =
          some (probeHash tab.cap key) := by
        simp [search, probePath, hn, walk]
        rw [← hn]
        simp [view, nodeBucket, hb]
      have hsettle : tab.settle (probeHash tab.cap key) = tab := by
        simp [settle, view, nodeBucket, hb]
      rw [hfirst]
      simp only [hsettle]
      unfold findSlot
      simp only [probeHash] at hb
      simp only [hb]
      rfl
  | some node =>
      rw [← hloop]
      unfold findSlot
      simp only [probeHash] at hb
      simp only [hb]
      rfl

/-! ## The second round covers the table -/

theorem and_cap_sub_one (e h : ℕ) : h &&& (2 ^ e - 1) = h % 2 ^ e :=
  Nat.and_two_pow_sub_one_eq_mod h e

theorem mem_walk_one {e n hash s : ℕ} (hh : hash < 2 ^ e)
    (hs : ∃ j < n, s = (hash + j) % 2 ^ e) : s ∈ walk (2 ^ e) 1 n hash := by
  induction n generalizing hash with
  | zero => 
      obtain ⟨j, hj, -⟩ := hs
      omega
  | succ n ih =>
      obtain ⟨j, hj, rfl⟩ := hs
      simp only [walk, List.mem_cons]
      cases j with
      | zero => exact Or.inl (Nat.mod_eq_of_lt hh)
      | succ j =>
          refine Or.inr (ih ?_ ⟨j, by omega, ?_⟩)
          · rw [and_cap_sub_one]
            exact Nat.mod_lt _ (by positivity)
          · rw [and_cap_sub_one, Nat.mod_add_mod]
            congr 1
            omega

theorem walkEnd_lt {e n hash : ℕ} (inc : ℕ) (hh : hash < 2 ^ e) :
    walkEnd (2 ^ e) inc n hash < 2 ^ e := by
  induction n generalizing hash with
  | zero => exact hh
  | succ n ih =>
      apply ih
      rw [and_cap_sub_one]
      exact Nat.mod_lt _ (by positivity)

theorem mem_walk_lt {e n inc hash s : ℕ} (hh : hash < 2 ^ e)
    (hs : s ∈ walk (2 ^ e) inc n hash) : s < 2 ^ e := by
  induction n generalizing hash with
  | zero => simp [walk] at hs
  | succ n ih =>
      rcases List.mem_cons.mp hs with rfl | hs
      · exact hh
      · refine ih ?_ hs
        rw [and_cap_sub_one]
        exact Nat.mod_lt _ (by positivity)

theorem probeHash_lt (e : ℕ) (key : CString) : probeHash (2 ^ e) key < 2 ^ e := by
  rw [probeHash, and_cap_sub_one]
  exact Nat.mod_lt _ (by positivity)

theorem mem_probePath_iff {e s : ℕ} (key : CString) :
    s ∈ probePath (2 ^ e) key ↔ s < 2 ^ e := by
  have hh := probeHash_lt e key
  have hend := walkEnd_lt (n := 2 ^ e) (probeInc (2 ^ e) key) hh
  constructor
  · intro hs
    rcases List.mem_append.mp hs with hs | hs
    · exact mem_walk_lt hh hs
    · exact mem_walk_lt hend hs
  · intro hs
    apply List.mem_append_right
    apply mem_walk_one hend
    set h := walkEnd (2 ^ e) (probeInc (2 ^ e) key) (2 ^ e) (probeHash (2 ^ e) key)
    refine ⟨(s + (2 ^ e - h)) % 2 ^ e, Nat.mod_lt _ (by positivity), ?_⟩
    rw [Nat.add_mod_mod, show h + (s + (2 ^ e - h)) = s + 2 ^ e by omega, Nat.add_mod_right,
      Nat.mod_eq_of_lt hs]

end SimpleVm.HashTable
