import Mathlib.Data.List.Basic

/-!
# Blocks of memory

An allocated block is the list of its cells. A store or a load outside the
block has no result. Growing a block keeps its cells and leaves the new ones
to the allocator.
-/

namespace Block

universe u

variable {β : Type u}

def store? (block : List β) (i : ℕ) (cells : List β) : Option (List β) :=
  if i + cells.length ≤ block.length then
    some (block.take i ++ cells ++ block.drop (i + cells.length))
  else none

def load? (block : List β) (i n : ℕ) : Option (List β) :=
  if i + n ≤ block.length then some ((block.drop i).take n) else none

/-- `fresh i` is what the allocator happens to have at cell `i`. -/
def grow (fresh : ℕ → β) (block : List β) (n : ℕ) : List β :=
  block.take n ++ (List.range (n - block.length)).map fun i => fresh (block.length + i)

theorem length_grow (fresh : ℕ → β) (block : List β) (n : ℕ) :
    (grow fresh block n).length = n := by
  simp only [grow, List.length_append, List.length_take, List.length_map, List.length_range]
  omega

theorem exists_grow_eq (fresh : ℕ → β) {block : List β} {n : ℕ} (hn : block.length ≤ n) :
    ∃ junk, grow fresh block n = block ++ junk ∧ junk.length = n - block.length := by
  refine ⟨_, by rw [grow, List.take_of_length_le hn], ?_⟩
  rw [List.length_map, List.length_range]

theorem prefix_grow {fresh : ℕ → β} {block cells : List β} {n : ℕ} (h : cells <+: block)
    (hn : block.length ≤ n) : cells <+: grow fresh block n := by
  rw [grow, List.take_of_length_le hn]
  exact h.trans (List.prefix_append _ _)

/-- Behind the old cells a grown block has what the allocator happens to have there. -/
theorem getElem?_grow (fresh : ℕ → β) {block : List β} {n i : ℕ} (hn : block.length ≤ n)
    (hi : block.length ≤ i) :
    (grow fresh block n)[i]? = if i < n then some (fresh i) else none := by
  rw [grow, List.take_of_length_le hn, List.getElem?_append_right hi, List.getElem?_map]
  by_cases hlt : i < n
  · rw [if_pos hlt, List.getElem?_range (by omega), Option.map_some]
    congr 2
    omega
  · rw [if_neg hlt, List.getElem?_eq_none (by rw [List.length_range]; omega), Option.map_none]

theorem exists_store_behind {block cells : List β} (more : List β) (h : cells <+: block)
    (hroom : cells.length + more.length ≤ block.length) :
    ∃ block', store? block cells.length more = some block' ∧
      block'.length = block.length ∧ cells ++ more <+: block' := by
  refine ⟨_, if_pos hroom, ?_, ?_⟩
  · simp only [List.length_append, List.length_take, List.length_drop]
    omega
  · rw [← List.prefix_iff_eq_take.mp h]
    exact List.prefix_append _ _

theorem load?_inside {block pre cells post : List β} (h : pre ++ cells ++ post <+: block) :
    load? block pre.length cells.length = some cells := by
  obtain ⟨rest, rfl⟩ := h
  have hlen : pre.length + cells.length ≤ (pre ++ cells ++ post ++ rest).length := by
    simp only [List.length_append]
    omega
  rw [load?, if_pos hlen]
  simp [List.append_assoc]

/-! ## Storing in the middle -/

/-- The block after a store that fits. -/
def overwrite (block : List β) (i : ℕ) (cells : List β) : List β :=
  block.take i ++ cells ++ block.drop (i + cells.length)

theorem store?_eq {block cells : List β} {i : ℕ} (h : i + cells.length ≤ block.length) :
    store? block i cells = some (overwrite block i cells) := if_pos h

theorem length_overwrite {block cells : List β} {i : ℕ} (h : i + cells.length ≤ block.length) :
    (overwrite block i cells).length = block.length := by
  simp only [overwrite, List.length_append, List.length_take, List.length_drop]
  omega

theorem getElem?_overwrite {block cells : List β} {i j : ℕ} (h : i + cells.length ≤ block.length)
    (hj : i + cells.length ≤ j) : (overwrite block i cells)[j]? = block[j]? := by
  have hlen : (block.take i ++ cells).length = i + cells.length := by
    rw [List.length_append, List.length_take]
    omega
  rw [overwrite, List.getElem?_append_right (by omega), hlen, List.getElem?_drop]
  congr 1
  omega

theorem overwrite_append {mid cells : List β} (pre post : List β) (h : mid.length = cells.length) :
    overwrite (pre ++ mid ++ post) pre.length cells = pre ++ cells ++ post := by
  have htake : (pre ++ mid ++ post).take pre.length = pre := by
    rw [List.append_assoc, List.take_left]
  rw [overwrite, htake, ← h, ← List.length_append, List.drop_left]

/-- Making room for `new` and putting it there. -/
theorem overwrite_splice {new : List β} (pre post rest : List β) (h : new.length ≤ rest.length) :
    overwrite (overwrite (pre ++ post ++ rest) (pre.length + new.length) post) pre.length new =
      pre ++ new ++ post ++ rest.drop new.length := by
  obtain ⟨gap, old, hsplit, hgap⟩ : ∃ gap old, post ++ rest.take new.length = gap ++ old ∧
      gap.length = new.length := by
    refine ⟨_, _, (List.take_append_drop new.length _).symm, ?_⟩
    rw [List.length_take, List.length_append, List.length_take]
    omega
  have hold : old.length = post.length := by
    have hlen := congrArg List.length hsplit
    rw [List.length_append, List.length_append, List.length_take] at hlen
    omega
  have hblock : pre ++ post ++ rest = (pre ++ gap) ++ old ++ rest.drop new.length := by
    rw [List.append_assoc pre gap old, ← hsplit, List.append_assoc, List.append_assoc,
      List.append_assoc, List.take_append_drop]
  have hfirst : overwrite (pre ++ post ++ rest) (pre.length + new.length) post =
      pre ++ gap ++ (post ++ rest.drop new.length) := by
    rw [hblock, ← hgap, ← List.length_append, overwrite_append _ _ hold, List.append_assoc]
  rw [hfirst, overwrite_append _ _ hgap, ← List.append_assoc]

/-- Moving `post` down onto what is in front of it. -/
theorem overwrite_erase {mid junk : List β} (pre post rest : List β)
    (h : junk.length = mid.length) :
    overwrite (pre ++ mid ++ post ++ rest) pre.length (post ++ junk) =
      pre ++ post ++ junk ++ rest := by
  have hlen : (mid ++ post).length = (post ++ junk).length := by
    rw [List.length_append, List.length_append, h, Nat.add_comm]
  have hover := overwrite_append pre rest hlen
  rw [← List.append_assoc, ← List.append_assoc] at hover
  exact hover

end Block
