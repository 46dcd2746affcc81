import Mathlib.Data.List.Induction
import Mathlib.Data.List.Nodup
import Mathlib.Logic.Function.Basic

/-!
# Doubly linked lists

Every node has a link to the next and one to the previous node, and a segment
is a list of nodes that are linked in this order, between a node before it
and a node behind it. Segments may be cut and joined anywhere, and only the
two links at the cut have to be changed.
-/

namespace LinkedList

universe u

variable {A : Type u}

structure Links (A : Type u) where
  next : A → Option A
  prev : A → Option A

/-- From `p` along the links `step` the nodes are `l`, and the last link is empty. -/
inductive Path (step : A → Option A) : Option A → List A → Prop
  | nil : Path step none []
  | cons {a : A} {l : List A} (h : Path step (step a) l) : Path step (some a) (a :: l)

/-- There is one way to go. -/
theorem Path.unique {step : A → Option A} {p : Option A} {l l' : List A} (h : Path step p l)
    (h' : Path step p l') : l = l' := by
  induction h generalizing l' with
  | nil =>
      cases h'
      rfl
  | cons h ih =>
      cases h' with
      | cons h' => rw [ih h']

theorem Path.congr {step step' : A → Option A} {p : Option A} {l : List A} (h : Path step p l)
    (hsame : ∀ a ∈ l, step' a = step a) : Path step' p l := by
  induction h with
  | nil => exact .nil
  | @cons a l _ ih =>
      obtain ⟨ha, hrest⟩ := List.forall_mem_cons.mp hsame
      have hpath := ih hrest
      rw [← ha] at hpath
      exact .cons hpath

def Segment (k : Links A) : Option A → List A → Option A → Prop
  | _, [], _ => True
  | before, a :: l, behind =>
      k.prev a = before ∧ k.next a = l.head?.or behind ∧ Segment k (some a) l behind

variable {k k' : Links A} {before behind : Option A} {l xs ys : List A}

/-! ## Segments -/

theorem segment_append :
    Segment k before (xs ++ ys) behind ↔
      Segment k before xs (ys.head?.or behind) ∧ Segment k (xs.getLast?.or before) ys behind := by
  induction xs generalizing before with
  | nil => simp [Segment]
  | cons a xs ih =>
      have hlast : ((a :: xs).getLast?.or before) = xs.getLast?.or (some a) := by
        rw [List.getLast?_cons]
        cases xs.getLast? <;> rfl
      rw [List.cons_append, Segment, Segment, ih, hlast, List.head?_append, Option.or_assoc,
        and_assoc, and_assoc]

theorem Segment.congr (h : Segment k before l behind)
    (hsame : ∀ a ∈ l, k'.next a = k.next a ∧ k'.prev a = k.prev a) :
    Segment k' before l behind := by
  induction l generalizing before with
  | nil => trivial
  | cons a l ih =>
      obtain ⟨hprev, hnext, hrest⟩ := h
      obtain ⟨hnext', hprev'⟩ := hsame a List.mem_cons_self
      exact ⟨hprev'.trans hprev, hnext'.trans hnext,
        ih hrest fun b hb => hsame b (List.mem_cons_of_mem a hb)⟩

theorem segment_singleton {a : A} :
    Segment k before [a] behind ↔ k.prev a = before ∧ k.next a = behind := by
  simp [Segment]

theorem Segment.path (h : Segment k before l none) : Path k.next l.head? l := by
  induction l generalizing before with
  | nil => exact .nil
  | cons a l ih =>
      obtain ⟨-, hnext, hrest⟩ := h
      have hpath := ih hrest
      rw [Option.or_none] at hnext
      rw [← hnext] at hpath
      exact .cons hpath

theorem Segment.path_reverse (h : Segment k none l behind) :
    Path k.prev l.getLast? l.reverse := by
  induction l using List.reverseRecOn generalizing behind with
  | nil => exact .nil
  | append_singleton xs a ih =>
      obtain ⟨hfront, hlast⟩ := segment_append.mp h
      obtain ⟨hprev, -⟩ := segment_singleton.mp hlast
      have hpath := ih hfront
      rw [Option.or_none] at hprev
      rw [← hprev] at hpath
      rw [List.getLast?_append, List.getLast?_singleton, Option.some_or, List.reverse_append]
      exact .cons hpath

/-! ## Changing links -/

section Links

variable [DecidableEq A]

def Links.setNext (k : Links A) (a : A) (p : Option A) : Links A :=
  { k with next := Function.update k.next a p }

def Links.setPrev (k : Links A) (a : A) (p : Option A) : Links A :=
  { k with prev := Function.update k.prev a p }

variable {a b : A} {p : Option A}

theorem Links.setNext_next_self : (k.setNext a p).next a = p := by
  simp [setNext]

theorem Links.setPrev_prev_self : (k.setPrev a p).prev a = p := by
  simp [setPrev]

theorem Links.setNext_next_of_ne (h : b ≠ a) : (k.setNext a p).next b = k.next b := by
  simp [setNext, h]

theorem Links.setPrev_prev_of_ne (h : b ≠ a) : (k.setPrev a p).prev b = k.prev b := by
  simp [setPrev, h]

theorem Links.setNext_eq_self (h : k.next a = p) : k.setNext a p = k := by
  rw [← h, setNext, Function.update_eq_self]

theorem Links.setPrev_eq_self (h : k.prev a = p) : k.setPrev a p = k := by
  rw [← h, setPrev, Function.update_eq_self]

/-- The links where the last node of `l` is followed by `p`. -/
def Links.setBehind (k : Links A) (l : List A) (p : Option A) : Links A :=
  match l.getLast? with
  | none => k
  | some a => k.setNext a p

def Links.setBefore (k : Links A) (l : List A) (p : Option A) : Links A :=
  match l.head? with
  | none => k
  | some a => k.setPrev a p

theorem Links.setBehind_eq (h : l.getLast? = some a) : k.setBehind l p = k.setNext a p := by
  rw [setBehind, h]

theorem Links.setBefore_eq (h : l.head? = some a) : k.setBefore l p = k.setPrev a p := by
  rw [setBefore, h]

theorem Segment.setBehind (h : Segment k before l behind) (hnodup : l.Nodup) (p : Option A) :
    Segment (k.setBehind l p) before l p := by
  induction l using List.reverseRecOn with
  | nil => trivial
  | append_singleton xs a _ =>
      obtain ⟨hfront, hlast⟩ := segment_append.mp h
      have ha : a ∉ xs := fun hmem => List.disjoint_of_nodup_append hnodup hmem (by simp)
      have hset : k.setBehind (xs ++ [a]) p = k.setNext a p := by
        rw [Links.setBehind, List.getLast?_append, List.getLast?_singleton, Option.some_or]
      rw [hset]
      apply segment_append.mpr
      constructor
      · apply Segment.congr hfront
        intro b hb
        have hne : b ≠ a := fun he => ha (he ▸ hb)
        exact ⟨Links.setNext_next_of_ne hne, rfl⟩
      · obtain ⟨hprev, -⟩ := segment_singleton.mp hlast
        exact segment_singleton.mpr ⟨hprev, Links.setNext_next_self⟩

theorem Segment.setBefore (h : Segment k before l behind) (hnodup : l.Nodup) (p : Option A) :
    Segment (k.setBefore l p) p l behind := by
  cases l with
  | nil => trivial
  | cons a l =>
      obtain ⟨-, hnext, hrest⟩ := h
      have ha : a ∉ l := (List.nodup_cons.mp hnodup).1
      change Segment (k.setPrev a p) p (a :: l) behind
      refine ⟨Links.setPrev_prev_self, hnext, ?_⟩
      apply Segment.congr hrest
      intro b hb
      have hne : b ≠ a := fun he => ha (he ▸ hb)
      exact ⟨rfl, Links.setPrev_prev_of_ne hne⟩

theorem Segment.of_setBehind_disjoint (h : Segment k before l behind) (hdisj : l.Disjoint xs)
    (p : Option A) : Segment (k.setBehind xs p) before l behind := by
  apply h.congr
  intro b hb
  unfold Links.setBehind
  cases hlast : xs.getLast? with
  | none => exact ⟨rfl, rfl⟩
  | some a =>
      have hne : b ≠ a := fun he => hdisj hb (he ▸ List.mem_of_getLast? hlast)
      exact ⟨Links.setNext_next_of_ne hne, rfl⟩

theorem Segment.of_setBefore_disjoint (h : Segment k before l behind) (hdisj : l.Disjoint xs)
    (p : Option A) : Segment (k.setBefore xs p) before l behind := by
  apply h.congr
  intro b hb
  unfold Links.setBefore
  cases hhead : xs.head? with
  | none => exact ⟨rfl, rfl⟩
  | some a =>
      have hne : b ≠ a := fun he => hdisj hb (he ▸ List.mem_of_mem_head? hhead)
      exact ⟨rfl, Links.setPrev_prev_of_ne hne⟩

/-- Two segments are joined by the two links at the cut. -/
theorem Segment.join {c d : Option A} (hxs : Segment k before xs c) (hys : Segment k d ys behind)
    (hnodup : (xs ++ ys).Nodup) :
    Segment ((k.setBehind xs (ys.head?.or behind)).setBefore ys (xs.getLast?.or before)) before
      (xs ++ ys) behind := by
  obtain ⟨hx, hy, hdisj⟩ := List.nodup_append'.mp hnodup
  apply segment_append.mpr
  constructor
  · apply Segment.of_setBefore_disjoint _ hdisj
    exact hxs.setBehind hx _
  · have hys' := hys.of_setBehind_disjoint (List.disjoint_comm.mp hdisj) (ys.head?.or behind)
    exact hys'.setBefore hy _

end Links

/-! ## Whole lists -/

/-- The nodes of the list with these ends, from the first to the last. -/
structure IsList (k : Links A) (first last : Option A) (l : List A) : Prop where
  nodup : l.Nodup
  first_eq : first = l.head?
  last_eq : last = l.getLast?
  segment : Segment k none l none

variable {first last : Option A}

theorem IsList.congr (h : IsList k first last l)
    (hsame : ∀ a ∈ l, k'.next a = k.next a ∧ k'.prev a = k.prev a) : IsList k' first last l :=
  ⟨h.nodup, h.first_eq, h.last_eq, h.segment.congr hsame⟩

theorem IsList.path (h : IsList k first last l) : Path k.next first l := by
  rw [h.first_eq]
  exact h.segment.path

theorem IsList.path_reverse (h : IsList k first last l) : Path k.prev last l.reverse := by
  rw [h.last_eq]
  exact h.segment.path_reverse

theorem IsList.first_eq_none_iff (h : IsList k first last l) : first = none ↔ l = [] := by
  rw [h.first_eq, List.head?_eq_none_iff]

theorem IsList.last_eq_none_iff (h : IsList k first last l) : last = none ↔ l = [] := by
  rw [h.last_eq, List.getLast?_eq_none_iff]

theorem IsList.first_or (h : IsList k first last l) (hl : l ≠ []) (p : Option A) :
    first.or p = first := by
  cases hfirst : first with
  | none => exact (hl (h.first_eq_none_iff.mp hfirst)).elim
  | some a => rfl

theorem IsList.last_or (h : IsList k first last l) (hl : l ≠ []) (p : Option A) :
    last.or p = last := by
  cases hlast : last with
  | none => exact (hl (h.last_eq_none_iff.mp hlast)).elim
  | some a => rfl

/-- One node is both ends of its list. -/
theorem IsList.eq_singleton_iff (h : IsList k first last l) :
    (∃ a, l = [a]) ↔ first ≠ none ∧ first = last := by
  rw [h.first_eq, h.last_eq]
  constructor
  · rintro ⟨a, rfl⟩
    simp
  · rintro ⟨hne, heq⟩
    cases l with
    | nil => simp at hne
    | cons a l =>
        refine ⟨a, ?_⟩
        cases l with
        | nil => rfl
        | cons b l =>
            have hmem : a ∈ b :: l := by
              apply List.mem_of_getLast?
              rw [← List.getLast?_cons_cons, ← heq, List.head?_cons]
            exact ((List.nodup_cons.mp h.nodup).1 hmem).elim

theorem isList_nil (k : Links A) : IsList k none none [] :=
  ⟨List.nodup_nil, rfl, rfl, trivial⟩

/-- A node in the middle is linked to its neighbours. -/
theorem IsList.links {a : A} (h : IsList k first last (xs ++ a :: ys)) :
    k.prev a = xs.getLast? ∧ k.next a = ys.head? := by
  obtain ⟨-, hprev, hnext, -⟩ := segment_append.mp h.segment
  rw [Option.or_none] at hprev hnext
  exact ⟨hprev, hnext⟩

section Operations

variable [DecidableEq A]

/-- Taking a node out closes the gap by the two links around it. -/
theorem IsList.remove {a : A} (h : IsList k first last (xs ++ a :: ys)) :
    IsList ((k.setBehind xs ys.head?).setBefore ys xs.getLast?)
      (xs ++ ys).head? (xs ++ ys).getLast? (xs ++ ys) := by
  obtain ⟨hfront, hrest⟩ := segment_append.mp h.segment
  obtain ⟨-, -, hback⟩ := hrest
  have hnodup : (xs ++ ys).Nodup :=
    h.nodup.sublist (List.Sublist.append_left (List.sublist_cons_self a ys) xs)
  have hjoin := hfront.join hback hnodup
  rw [Option.or_none, Option.or_none] at hjoin
  exact ⟨hnodup, rfl, rfl, hjoin⟩

/-- A new node goes between two neighbours by four links. -/
theorem IsList.insert {a : A} (h : IsList k first last (xs ++ ys)) (ha : a ∉ xs ++ ys) :
    IsList ((((k.setPrev a xs.getLast?).setNext a ys.head?).setBehind xs (some a)).setBefore ys
      (some a)) (xs ++ a :: ys).head? (xs ++ a :: ys).getLast? (xs ++ a :: ys) := by
  obtain ⟨hax, hay⟩ := List.mem_append.not.mp ha |> not_or.mp
  obtain ⟨hx, hy, hdisj⟩ := List.nodup_append'.mp h.nodup
  obtain ⟨hfront, hback⟩ := segment_append.mp h.segment
  have hfresh : ∀ {b : Option A} {zs : List A} {e : Option A}, a ∉ zs → Segment k b zs e →
      Segment ((k.setPrev a xs.getLast?).setNext a ys.head?) b zs e := by
    intro b zs e hzs hseg
    apply hseg.congr
    intro c hc
    have hne : c ≠ a := fun he => hzs (he ▸ hc)
    exact ⟨Links.setNext_next_of_ne hne, Links.setPrev_prev_of_ne hne⟩
  have hself : Segment ((k.setPrev a xs.getLast?).setNext a ys.head?) xs.getLast? [a] ys.head? :=
    segment_singleton.mpr ⟨Links.setPrev_prev_self, Links.setNext_next_self⟩
  have hdisjx : [a].Disjoint xs := List.singleton_disjoint.mpr hax
  have hdisjy : [a].Disjoint ys := List.singleton_disjoint.mpr hay
  refine ⟨?_, rfl, rfl, ?_⟩
  · apply List.nodup_append'.mpr
    refine ⟨hx, List.nodup_cons.mpr ⟨hay, hy⟩, ?_⟩
    exact List.disjoint_cons_right.mpr ⟨hax, hdisj⟩
  · rw [show a :: ys = [a] ++ ys from rfl]
    apply segment_append.mpr
    constructor
    · apply Segment.of_setBefore_disjoint _ hdisj
      exact (hfresh hax hfront).setBehind hx _
    · rw [Option.or_none]
      apply segment_append.mpr
      constructor
      · rw [Option.or_none]
        apply Segment.of_setBefore_disjoint _ hdisjy
        exact hself.of_setBehind_disjoint hdisjx _
      · have hys := (hfresh hay hback).of_setBehind_disjoint (List.disjoint_comm.mp hdisj) (some a)
        exact hys.setBefore hy _

theorem IsList.insert_between {a b c : A} (h : IsList k first last (xs ++ ys))
    (ha : a ∉ xs ++ ys) (hb : xs.getLast? = some b) (hc : ys.head? = some c) :
    IsList ((((k.setPrev a (some b)).setNext a (some c)).setNext b (some a)).setPrev c (some a))
      first last (xs ++ a :: ys) := by
  have hxs : xs ≠ [] := List.ne_nil_of_mem (List.mem_of_getLast? hb)
  have hys : ys ≠ [] := List.ne_nil_of_mem (List.mem_of_mem_head? hc)
  have hinsert := h.insert ha
  rw [Links.setBehind_eq hb, Links.setBefore_eq hc, hb, hc] at hinsert
  have hfirst : (xs ++ a :: ys).head? = first := by
    rw [h.first_eq, List.head?_append_of_ne_nil _ hxs, List.head?_append_of_ne_nil _ hxs]
  have hlast : (xs ++ a :: ys).getLast? = last := by
    rw [h.last_eq, List.getLast?_append_of_ne_nil _ hys,
      List.getLast?_append_of_ne_nil _ (List.cons_ne_nil a ys), List.getLast?_cons_of_ne_nil hys]
  rwa [hfirst, hlast] at hinsert

theorem IsList.append {a : A} (h : IsList k first last l) (ha : a ∉ l) (hnext : k.next a = none) :
    IsList ((k.setPrev a last).setBehind l (some a)) (first.or (some a)) (some a) (l ++ [a]) := by
  have hfront : IsList k first last (l ++ []) := by rwa [List.append_nil]
  have hinsert := hfront.insert (by rwa [List.append_nil])
  rw [← h.last_eq] at hinsert
  have hsame : (k.setPrev a last).setNext a none = k.setPrev a last := Links.setNext_eq_self hnext
  rw [List.head?_nil, hsame, List.head?_append, ← h.first_eq, List.getLast?_concat] at hinsert
  exact hinsert

theorem IsList.prepend {a : A} (h : IsList k first last l) (ha : a ∉ l) (hprev : k.prev a = none) :
    IsList ((k.setNext a first).setBefore l (some a)) (some a) (last.or (some a)) (a :: l) := by
  have hback : IsList k first last ([] ++ l) := h
  have hinsert := hback.insert ha
  have hsame : k.setPrev a none = k := Links.setPrev_eq_self hprev
  rw [← h.first_eq, List.getLast?_nil, hsame, List.nil_append, List.getLast?_cons, ← h.last_eq]
    at hinsert
  cases last with
  | none => exact hinsert
  | some b => exact hinsert

theorem IsList.remove_last {a b : A} (h : IsList k first last (xs ++ [a]))
    (hb : xs.getLast? = some b) : IsList (k.setNext b none) first (some b) xs := by
  have hxs : xs ≠ [] := List.ne_nil_of_mem (List.mem_of_getLast? hb)
  have hremove := h.remove
  have hfirst : xs.head? = first := by
    rw [h.first_eq, List.head?_append_of_ne_nil _ hxs]
  rw [Links.setBehind_eq hb, List.append_nil, hfirst, hb] at hremove
  exact hremove

theorem IsList.remove_first {a c : A} (h : IsList k first last (a :: ys))
    (hc : ys.head? = some c) : IsList (k.setPrev c none) (some c) last ys := by
  have hys : ys ≠ [] := List.ne_nil_of_mem (List.mem_of_mem_head? hc)
  have hback : IsList k first last ([] ++ a :: ys) := h
  have hremove := hback.remove
  have hlast : ys.getLast? = last := by
    rw [h.last_eq, List.getLast?_cons_of_ne_nil hys]
  rw [Links.setBefore_eq hc, List.nil_append, hlast, hc] at hremove
  exact hremove

theorem IsList.remove_between {a b c : A} (h : IsList k first last (xs ++ a :: ys))
    (hb : xs.getLast? = some b) (hc : ys.head? = some c) :
    IsList ((k.setPrev c (some b)).setNext b (some c)) first last (xs ++ ys) := by
  have hxs : xs ≠ [] := List.ne_nil_of_mem (List.mem_of_getLast? hb)
  have hys : ys ≠ [] := List.ne_nil_of_mem (List.mem_of_mem_head? hc)
  have hremove := h.remove
  have hfirst : (xs ++ ys).head? = first := by
    rw [h.first_eq, List.head?_append_of_ne_nil _ hxs, List.head?_append_of_ne_nil _ hxs]
  have hlast : (xs ++ ys).getLast? = last := by
    rw [h.last_eq, List.getLast?_append_of_ne_nil _ hys,
      List.getLast?_append_of_ne_nil _ (List.cons_ne_nil a ys), List.getLast?_cons_of_ne_nil hys]
  rw [Links.setBehind_eq hb, Links.setBefore_eq hc, hfirst, hlast, hb, hc] at hremove
  exact hremove

end Operations

end LinkedList
