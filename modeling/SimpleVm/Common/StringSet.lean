import Mathlib.Data.List.Sort
import SimpleVm.Common.PointerSort
import SimpleVm.Common.StringSplit

/-!
# String lists

A string list is a pointer list of strings. `add_string_list` looks through the
whole list first, and `append_string_list_list` puts copies on it. The search
answers only after the list has been sorted and no string was put on it since.
-/

namespace SimpleVm

namespace CString

/-! ## Comparing strings -/

def compareBytes : List UInt8 → List UInt8 → ℤ
  | [], [] => 0
  | [], b :: _ => -(b.toNat : ℤ)
  | a :: _, [] => a.toNat
  | a :: s, b :: t => if a = b then compareBytes s t else (a.toNat : ℤ) - b.toNat

/-- The difference of the first two bytes that are not the same. -/
def strcmp (s t : CString) : ℤ := compareBytes s.bytes t.bytes

theorem compareBytes_swap (s t : List UInt8) : compareBytes s t = -compareBytes t s := by
  induction s generalizing t with
  | nil => cases t <;> simp [compareBytes]
  | cons a s ih =>
      cases t with
      | nil => simp [compareBytes]
      | cons b t =>
          by_cases hab : a = b
          · simp [compareBytes, hab, ih t]
          · have hba : b ≠ a := Ne.symm hab
            simp [compareBytes, hab, hba]

theorem compareBytes_trans {s t u : List UInt8} (hs : 0 ∉ s) (ht : 0 ∉ t)
    (hst : compareBytes s t ≤ 0) (htu : compareBytes t u ≤ 0) : compareBytes s u ≤ 0 := by
  have hzero : ∀ {b : UInt8}, (b.toNat : ℤ) ≤ 0 → b = 0 := by
    intro b hb
    apply UInt8.toNat_inj.mp
    simpa using hb
  induction s generalizing t u with
  | nil => cases u <;> simp [compareBytes]
  | cons a s ih =>
      cases t with
      | nil => exact absurd (hzero hst) fun h => hs (h ▸ List.mem_cons_self)
      | cons b t =>
          cases u with
          | nil => exact absurd (hzero htu) fun h => ht (h ▸ List.mem_cons_self)
          | cons c u =>
              have hs' : 0 ∉ s := fun h => hs (List.mem_cons_of_mem a h)
              have ht' : 0 ∉ t := fun h => ht (List.mem_cons_of_mem b h)
              have hne : ∀ {x y : UInt8}, x ≠ y → x.toNat ≠ y.toNat := fun h h' =>
                h (UInt8.toNat_inj.mp h')
              simp only [compareBytes] at hst htu ⊢
              by_cases hab : a = b
              · subst hab
                rw [if_pos rfl] at hst
                split at htu
                · next hac =>
                    rw [if_pos hac]
                    exact ih hs' ht' hst htu
                · next hac => rwa [if_neg hac]
              · rw [if_neg hab] at hst
                have hlt := hne hab
                split at htu
                · next hbc =>
                    subst hbc
                    rwa [if_neg hab]
                · have hac : a ≠ c := by
                    rintro rfl
                    omega
                  rw [if_neg hac]
                  omega

theorem compareBytes_eq_zero {s t : List UInt8} (hs : 0 ∉ s) (ht : 0 ∉ t) :
    compareBytes s t = 0 ↔ s = t := by
  have hzero : ∀ {b : UInt8}, (b.toNat : ℤ) = 0 → b = 0 := by
    intro b hb
    apply UInt8.toNat_inj.mp
    simpa using hb
  induction s generalizing t with
  | nil =>
      cases t with
      | nil => simp [compareBytes]
      | cons b t =>
          have hb : b ≠ 0 := fun h => ht (h ▸ List.mem_cons_self)
          simpa [compareBytes] using fun h => hb (hzero (by omega))
  | cons a s ih =>
      cases t with
      | nil =>
          have ha : a ≠ 0 := fun h => hs (h ▸ List.mem_cons_self)
          simpa [compareBytes] using fun h => ha (hzero (by omega))
      | cons b t =>
          have hs' : 0 ∉ s := fun h => hs (List.mem_cons_of_mem a h)
          have ht' : 0 ∉ t := fun h => ht (List.mem_cons_of_mem b h)
          by_cases hab : a = b
          · simp [compareBytes, hab, ih hs' ht']
          · have hne : a.toNat ≠ b.toNat := fun h => hab (UInt8.toNat_inj.mp h)
            have hdiff : compareBytes (a :: s) (b :: t) = (a.toNat : ℤ) - b.toNat := if_neg hab
            constructor
            · intro h
              rw [hdiff] at h
              exact absurd (by omega) hne
            · exact fun h => absurd (List.cons.inj h).1 hab

theorem strcmp_swap (s t : CString) : strcmp s t = -strcmp t s := compareBytes_swap _ _

theorem strcmp_trans {s t u : CString} (hst : strcmp s t ≤ 0) (htu : strcmp t u ≤ 0) :
    strcmp s u ≤ 0 := compareBytes_trans s.nul_notMem t.nul_notMem hst htu

theorem pairwise_insertionSort (texts : List CString) :
    (texts.insertionSort fun s t => strcmp s t ≤ 0).Pairwise fun s t => strcmp s t ≤ 0 := by
  have htotal : Std.Total fun s t : CString => strcmp s t ≤ 0 := by
    constructor
    intro s t
    have hswap := strcmp_swap s t
    omega
  have htrans : IsTrans CString fun s t => strcmp s t ≤ 0 := ⟨fun _ _ _ => strcmp_trans⟩
  exact List.pairwise_insertionSort _ texts

theorem strcmp_eq_zero {s t : CString} : strcmp s t = 0 ↔ s = t :=
  (compareBytes_eq_zero s.nul_notMem t.nul_notMem).trans CString.ext_iff.symm

end CString

namespace StringList

open PointerList Sorting StringSplit

/-! ## The source -/

def createStringList : PointerList StringT := createPtrList

def appendStringList (cells : ℕ → Option StringT) (lst : PointerList StringT) (str : StringT) :
    Except Halt (PointerList StringT) := lst.appendPtrList cells (some str)

/-- The order of the strings the pointers point to. There is no `NULL` in the list. -/
def compFunc : Option StringT → Option StringT → ℤ
  | some p1, some p2 => CString.strcmp p1.rawString p2.rawString
  | _, _ => 0

def sortStringList (lst : PointerList StringT) : Except Halt (PointerList StringT) :=
  lst.sortPtrList compFunc

def findStringList (lst : PointerList StringT) (key : StringT) : Except Halt ℤ :=
  lst.findPtrListIdx (some key) compFunc

/-- The loop of `add_string_list`, which returns when it comes to the string. -/
def inStringList (lst : PointerList StringT) (str : StringT) : ℕ → ℤ → Except Halt Bool
  | 0, _ => .error .diverges
  | rounds + 1, mark => do
      match ← iteratePtrList (some lst) mark with
      | (none, _) => .ok false
      | (some ptr, mark) =>
          if compFunc (some ptr) (some str) = 0 then .ok true
          else inStringList lst str rounds mark

def addStringList (cells : ℕ → Option StringT) (lst : PointerList StringT) (str : StringT) :
    Except Halt (PointerList StringT) := do
  if ← inStringList lst str (lst.len + 1) 0 then .ok lst else appendStringList cells lst str

/-- The loop of `append_string_list_list`. -/
def appendCopies (blocks : ℕ → UInt8) (cells : ℕ → Option StringT) (src : PointerList StringT) :
    ℕ → ℤ → PointerList StringT → Except Halt (PointerList StringT)
  | 0, _, _ => .error .diverges
  | rounds + 1, mark, dest => do
      match ← iteratePtrList (some src) mark with
      | (none, _) => .ok dest
      | (some item, mark) => do
          let copy ← item.copyString blocks
          let dest ← appendStringList cells dest copy
          appendCopies blocks cells src rounds mark dest

def appendStringListList (blocks : ℕ → UInt8) (cells : ℕ → Option StringT)
    (dest src : PointerList StringT) : Except Halt (PointerList StringT) :=
  appendCopies blocks cells src (src.len + 1) 0 dest

/-! ## The calls -/

/-- Another list, and the texts of its strings. -/
structure HeldList where
  lst : PointerList StringT
  texts : List CString
  holds : HoldsStrings texts lst

inductive Call where
  | append (str : StringT.HeldString)
  | add (str : StringT.HeldString)
  | appendList (src : HeldList)
  | sort

def perform (blocks : ℕ → UInt8) (cells : ℕ → Option StringT) (lst : PointerList StringT) :
    Call → Except Halt (PointerList StringT)
  | .append str => appendStringList cells lst str.str
  | .add str => addStringList cells lst str.str
  | .appendList src => appendStringListList blocks cells lst src.lst
  | .sort => sortStringList lst

def after (blocks : ℕ → UInt8) (cells : ℕ → Option StringT) (calls : List Call) :
    Except Halt (PointerList StringT) :=
  calls.foldlM (perform blocks cells) createStringList

/-- The texts of the strings, and whether they are known to be sorted. -/
structure Texts where
  texts : List CString
  sorted : Bool

/-- What a call is for. -/
def Texts.step (t : Texts) : Call → Texts
  | .append str => ⟨t.texts ++ [str.text], false⟩
  | .add str => if str.text ∈ t.texts then t else ⟨t.texts ++ [str.text], false⟩
  | .appendList src => ⟨t.texts ++ src.texts, t.sorted && src.texts.isEmpty⟩
  | .sort => ⟨t.texts.insertionSort fun s t => CString.strcmp s t ≤ 0, true⟩

def textsAfter (calls : List Call) : Texts := calls.foldl Texts.step ⟨[], false⟩

/-- The index of the key, or -1 when it is not there or the order is not known. -/
def Texts.Finds (t : Texts) (key : CString) (idx : ℤ) : Prop :=
  (t.sorted = true ∧ ∃ i : ℕ, idx = i ∧ t.texts[i]? = some key) ∨
    idx = -1 ∧ (t.sorted = true → key ∉ t.texts)

/-! ## The order -/

def textOf (ptr : Option StringT) : CString := (ptr.map StringT.rawString).getD CString.empty

/-- The pointers to strings with a text. -/
def strings : Set (Option StringT) := {ptr | ∃ str text, ptr = some str ∧ StringT.Holds text str}

theorem mem_strings (str : StringT.HeldString) : some str.str ∈ strings :=
  ⟨str.str, str.text, rfl, str.holds⟩

@[simp] theorem textOf_some (str : StringT.HeldString) : textOf (some str.str) = str.text :=
  str.holds.rawString_eq

theorem compFunc_eq {p q : Option StringT} (hp : p ∈ strings) (hq : q ∈ strings) :
    compFunc p q = CString.strcmp (textOf p) (textOf q) := by
  obtain ⟨str, -, rfl, -⟩ := hp
  obtain ⟨str', -, rfl, -⟩ := hq
  rfl

theorem totalPreorderOn_compFunc : TotalPreorderOn strings compFunc := by
  constructor
  · intro x hx y hy
    have hswap := CString.strcmp_swap (textOf x) (textOf y)
    rw [compFunc_eq hx hy, compFunc_eq hy hx]
    omega
  · intro x hx y hy z hz
    rw [compFunc_eq hx hy, compFunc_eq hy hz, compFunc_eq hx hz]
    exact CString.strcmp_trans

/-! ## What the list holds -/

/-- The strings of the list have the texts `t`, and it is marked as sorted when they are. -/
structure Refines (t : Texts) (lst : PointerList StringT) : Prop where
  elems : ∃ elems, Searchable strings compFunc elems lst ∧ elems.map textOf = t.texts
  sorted : lst.isSorted = t.sorted

section Steps

variable {t : Texts} {lst lst' src : PointerList StringT} {blocks : ℕ → UInt8}
  {cells : ℕ → Option StringT} {elems : List (Option StringT)} {texts : List CString}

theorem refines_create : Refines ⟨[], false⟩ createStringList :=
  ⟨⟨[], ⟨holds_create, List.forall_mem_nil _, fun _ => List.Pairwise.nil⟩, rfl⟩, rfl⟩

theorem forall₂_textOf (hmem : ∀ ptr ∈ elems, ptr ∈ strings) :
    List.Forall₂ (fun ptr text => ∃ str, ptr = some str ∧ StringT.Holds text str) elems
      (elems.map textOf) := by
  rw [List.forall₂_map_right_iff, List.forall₂_same]
  intro ptr hptr
  obtain ⟨str, text, rfl, hstr⟩ := hmem ptr hptr
  refine ⟨str, rfl, ?_⟩
  rwa [textOf_some ⟨str, text, hstr⟩]

theorem Refines.holdsStrings (h : Refines t lst) : HoldsStrings t.texts lst := by
  obtain ⟨elems, hlst, htexts⟩ := h.elems
  exact ⟨elems, hlst.holds, htexts ▸ forall₂_textOf hlst.mem⟩

theorem exists_elems (h : HoldsStrings texts lst) :
    ∃ elems, Holds elems lst ∧ (∀ ptr ∈ elems, ptr ∈ strings) ∧ elems.map textOf = texts := by
  obtain ⟨elems, hlst, hall⟩ := h
  suffices hboth : (∀ ptr ∈ elems, ptr ∈ strings) ∧ elems.map textOf = texts from
    ⟨elems, hlst, hboth⟩
  clear hlst
  induction hall with
  | nil => exact ⟨List.forall_mem_nil _, rfl⟩
  | @cons ptr text _ _ hfirst _ ih =>
      obtain ⟨str, rfl, hstr⟩ := hfirst
      refine ⟨List.forall_mem_cons.mpr ⟨⟨str, text, rfl, hstr⟩, ih.1⟩, ?_⟩
      rw [List.map_cons, ih.2, textOf_some ⟨str, text, hstr⟩]

theorem Refines.append (h : Refines t lst) (str : StringT.HeldString)
    (hrun : appendStringList cells lst str.str = .ok lst') :
    Refines ⟨t.texts ++ [str.text], false⟩ lst' := by
  obtain ⟨elems, hlst, htexts⟩ := h.elems
  have hlst' := hlst.append (mem_strings str) hrun
  refine ⟨⟨_, hlst', ?_⟩, appendPtrList_unsorted hrun⟩
  rw [List.map_append, htexts, List.map_singleton, textOf_some]

theorem inStringList_spec (h : Holds elems lst) (hmem : ∀ ptr ∈ elems, ptr ∈ strings)
    (str : StringT.HeldString) {rounds i : ℕ} (hi : elems.length < i + rounds)
    (hle : i ≤ elems.length) :
    ∃ found, inStringList lst str.str rounds i = .ok found ∧
      (found = true ↔ str.text ∈ (elems.drop i).map textOf) := by
  induction rounds generalizing i with
  | zero => omega
  | succ rounds ih =>
      obtain hlt | rfl := Nat.lt_or_eq_of_le hle
      · have hptr := hmem _ (List.getElem_mem hlt)
        have hnext := h.iteratePtrList hlt
        have heq := compFunc_eq hptr (mem_strings str)
        obtain ⟨item, text, hitem, -⟩ := hptr
        rw [hitem] at hnext heq
        rw [textOf_some] at heq
        obtain ⟨found, hrest, hfound⟩ := ih (i := i + 1) (by omega) hlt
        rw [List.drop_eq_getElem_cons hlt, hitem, List.map_cons, List.mem_cons]
        simp only [inStringList, hnext, ok_bind]
        by_cases hzero : compFunc (some item) (some str.str) = 0
        · have hsame : str.text = textOf (some item) :=
            (CString.strcmp_eq_zero.mp (heq ▸ hzero)).symm
          exact ⟨true, if_pos hzero, by simp [hsame]⟩
        · have hother : str.text ≠ textOf (some item) := by
            intro hsame
            exact hzero (heq.trans (CString.strcmp_eq_zero.mpr hsame.symm))
          refine ⟨found, (if_neg hzero).trans hrest, ?_⟩
          rw [hfound, or_iff_right hother]
      · have hend := h.iteratePtrList_end
        exact ⟨false, by simp only [inStringList, hend, ok_bind], by simp⟩

theorem Refines.add (h : Refines t lst) (str : StringT.HeldString)
    (hrun : addStringList cells lst str.str = .ok lst') : Refines (t.step (.add str)) lst' := by
  obtain ⟨elems, hlst, htexts⟩ := h.elems
  have hrounds : elems.length < 0 + (lst.len + 1) := by
    have hlen := hlst.holds.len_eq
    omega
  obtain ⟨found, hin, hfound⟩ :=
    inStringList_spec hlst.holds hlst.mem str hrounds (Nat.zero_le _)
  rw [List.drop_zero, htexts] at hfound
  obtain ⟨found', hin', hrest⟩ := bind_eq_ok.mp hrun
  obtain rfl : found = found' := Except.ok.inj (hin.symm.trans hin')
  rw [Texts.step]
  cases found with
  | true =>
      obtain rfl : lst = lst' := Except.ok.inj hrest
      rwa [if_pos (hfound.mp rfl)]
  | false =>
      rw [if_neg fun hmem => Bool.false_ne_true (hfound.mpr hmem)]
      exact h.append str hrest

theorem copyString_fits {str : StringT} {copy : StringT} {text : CString}
    (hstr : StringT.Holds text str) (hrun : str.copyString blocks = .ok copy) :
    StringT.Holds text copy := by
  rw [StringT.copyString, hstr.rawString_eq] at hrun
  obtain ⟨copy', hcopy, -, hheld⟩ :=
    StringT.createString_spec blocks (StringT.createString_fits hrun)
  rw [hrun] at hcopy
  obtain rfl := Except.ok.inj hcopy
  exact hheld

theorem Refines.appendCopies (h : Refines t lst) (hsrc : Holds elems src)
    (hmem : ∀ ptr ∈ elems, ptr ∈ strings) {rounds i : ℕ} (hi : elems.length < i + rounds)
    (hle : i ≤ elems.length)
    (hrun : StringList.appendCopies blocks cells src rounds i lst = .ok lst') :
    Refines ⟨t.texts ++ (elems.drop i).map textOf, t.sorted && (elems.drop i).isEmpty⟩ lst' := by
  induction rounds generalizing i t lst with
  | zero => cases hrun
  | succ rounds ih =>
      obtain hlt | rfl := Nat.lt_or_eq_of_le hle
      · have hnext := hsrc.iteratePtrList hlt
        obtain ⟨item, text, hitem, hheld⟩ := hmem _ (List.getElem_mem hlt)
        rw [hitem] at hnext
        rw [StringList.appendCopies, hnext, ok_bind] at hrun
        obtain ⟨copy, hcopy, hrest⟩ := bind_eq_ok.mp hrun
        obtain ⟨dest, happend, hrest⟩ := bind_eq_ok.mp hrest
        have h' := h.append ⟨copy, text, copyString_fits hheld hcopy⟩ happend
        have hend := ih h' (i := i + 1) (by omega) hlt hrest
        have htext : textOf (some item) = text := textOf_some ⟨item, text, hheld⟩
        rw [List.drop_eq_getElem_cons hlt, hitem, List.map_cons, htext]
        simpa using hend
      · have hend := hsrc.iteratePtrList_end
        simp only [StringList.appendCopies, hend, ok_bind] at hrun
        obtain rfl := Except.ok.inj hrun
        simpa using h

theorem Refines.appendList (h : Refines t lst) (src : HeldList)
    (hrun : appendStringListList blocks cells lst src.lst = .ok lst') :
    Refines (t.step (.appendList src)) lst' := by
  obtain ⟨elems, hsrc, hmem, htexts⟩ := exists_elems src.holds
  have hlen := hsrc.len_eq
  have hend := h.appendCopies (i := 0) hsrc hmem (by omega) (Nat.zero_le _) hrun
  rw [List.drop_zero, htexts] at hend
  have hempty : elems.isEmpty = src.texts.isEmpty := by rw [← htexts, List.isEmpty_map]
  rwa [hempty] at hend

theorem Refines.sort (h : Refines t lst) (hrun : sortStringList lst = .ok lst') :
    Refines (t.step .sort) lst' := by
  obtain ⟨elems, hlst, htexts⟩ := h.elems
  have hlst' := hlst.sort totalPreorderOn_compFunc hrun
  have hsorted : lst'.isSorted = true := by
    obtain ⟨lst₁, -, hend⟩ := bind_eq_ok.mp hrun
    cases hend
    rfl
  refine ⟨⟨_, hlst', ?_⟩, hsorted⟩
  have hperm : ((bubbleSort compFunc elems).map textOf).Perm
      (t.texts.insertionSort fun s t => CString.strcmp s t ≤ 0) := by
    have hbubble := (reordered_bubbleSort totalPreorderOn_compFunc hlst.mem).perm.map textOf
    rw [htexts] at hbubble
    exact hbubble.trans (List.perm_insertionSort _ _).symm
  apply hperm.eq_of_pairwise _ _ (CString.pairwise_insertionSort t.texts)
  · intro s t _ _ hst hts
    have hswap := CString.strcmp_swap s t
    exact CString.strcmp_eq_zero.mp (by omega)
  · rw [List.pairwise_map]
    have hpairs := sorted_bubbleSort totalPreorderOn_compFunc hlst.mem
    apply hpairs.imp_of_mem
    intro p q hp hq hle
    rwa [← compFunc_eq (hlst'.mem p hp) (hlst'.mem q hq)]

theorem Refines.perform {call : Call} (h : Refines t lst)
    (hrun : StringList.perform blocks cells lst call = .ok lst') :
    Refines (t.step call) lst' := by
  cases call with
  | append str => exact h.append str hrun
  | add str => exact h.add str hrun
  | appendList src => exact h.appendList src hrun
  | sort => exact h.sort hrun

theorem Refines.foldlM {calls : List Call} (h : Refines t lst)
    (hrun : calls.foldlM (StringList.perform blocks cells) lst = .ok lst') :
    Refines (calls.foldl Texts.step t) lst' := by
  induction calls generalizing t lst with
  | nil =>
      obtain rfl := Except.ok.inj hrun
      exact h
  | cons call calls ih =>
      rw [List.foldlM_cons] at hrun
      obtain ⟨mid, hstep, hrest⟩ := bind_eq_ok.mp hrun
      exact ih (h.perform hstep) hrest

theorem Refines.findStringList (h : Refines t lst) (key : StringT.HeldString) :
    ∃ idx, StringList.findStringList lst key.str = .ok idx ∧ t.Finds key.text idx := by
  obtain ⟨elems, hlst, htexts⟩ := h.elems
  cases hmark : lst.isSorted with
  | false =>
      have hno : t.sorted = false := h.sorted.symm.trans hmark
      refine ⟨-1, ?_, .inr ⟨rfl, by simp [hno]⟩⟩
      rw [StringList.findStringList, findPtrListIdx, hmark, if_neg Bool.false_ne_true]
  | true =>
      obtain ⟨idx, hrun, hfound⟩ := hlst.holds.findPtrListIdx hmark (hlst.sorted hmark)
        totalPreorderOn_compFunc hlst.mem (mem_strings key)
      refine ⟨idx, hrun, ?_⟩
      rcases hfound with ⟨i, hi, rfl, hzero⟩ | ⟨rfl, hnone⟩
      · left
        refine ⟨h.sorted.symm.trans hmark, i, rfl, ?_⟩
        have hptr := hlst.mem _ (List.getElem_mem hi)
        rw [compFunc_eq (mem_strings key) hptr, textOf_some] at hzero
        rw [← htexts, List.getElem?_map, List.getElem?_eq_getElem hi, Option.map_some,
          ← CString.strcmp_eq_zero.mp hzero]
      · right
        refine ⟨rfl, fun _ hmem => ?_⟩
        rw [← htexts] at hmem
        obtain ⟨ptr, hptr, htext⟩ := List.mem_map.mp hmem
        apply hnone ptr hptr
        rw [compFunc_eq (mem_strings key) (hlst.mem ptr hptr), textOf_some, htext]
        exact CString.strcmp_eq_zero.mpr rfl

end Steps

theorem refines_after {blocks : ℕ → UInt8} {cells : ℕ → Option StringT} {calls : List Call}
    {lst : PointerList StringT} (hrun : after blocks cells calls = .ok lst) :
    Refines (textsAfter calls) lst := refines_create.foldlM hrun

/-- After every run of calls the list has the texts that the calls are for, and each search gives
the index of its key when the list was sorted after the last string came. -/
theorem string_list_spec {blocks : ℕ → UInt8} {cells : ℕ → Option StringT} {calls : List Call}
    {lst : PointerList StringT} (hrun : after blocks cells calls = .ok lst) :
    HoldsStrings (textsAfter calls).texts lst ∧ ∀ key : StringT.HeldString,
      ∃ idx, findStringList lst key.str = .ok idx ∧ (textsAfter calls).Finds key.text idx :=
  ⟨(refines_after hrun).holdsStrings, (refines_after hrun).findStringList⟩

/-! ## Sets -/

def Call.adds : Call → Option CString
  | .add str => some str.text
  | _ => none

/-- Only `add_string_list` and sorting. -/
def Call.KeepsSet : Call → Prop
  | .add _ | .sort => True
  | .append _ | .appendList _ => False

/-- No string twice, and in order when the order is known. -/
structure Texts.IsSet (t : Texts) (member : CString → Prop) : Prop where
  nodup : t.texts.Nodup
  mem : ∀ text, text ∈ t.texts ↔ member text
  sorted : t.sorted = true → t.texts.Pairwise fun s t => CString.strcmp s t < 0

theorem Texts.IsSet.step {t : Texts} {member : CString → Prop} (h : t.IsSet member) {call : Call}
    (hcall : call.KeepsSet) :
    (t.step call).IsSet fun text => member text ∨ call.adds = some text := by
  cases call with
  | append str => cases hcall
  | appendList src => cases hcall
  | add str =>
      rw [Texts.step]
      split
      · next hmem =>
          refine ⟨h.nodup, ?_, h.sorted⟩
          intro text
          have hold : member str.text := (h.mem _).mp hmem
          rw [h.mem, Call.adds, Option.some_inj]
          exact ⟨.inl, fun hor => hor.elim id fun heq => heq ▸ hold⟩
      · next hnew =>
          refine ⟨List.nodup_append'.mpr ⟨h.nodup, List.nodup_singleton _, by simpa using hnew⟩, ?_,
            fun hno => by cases hno⟩
          intro text
          rw [List.mem_append, List.mem_singleton, h.mem, Call.adds, Option.some_inj,
            eq_comm (a := text)]
  | sort =>
      have hperm := List.perm_insertionSort (fun s t => CString.strcmp s t ≤ 0) t.texts
      have hnodup : (t.step .sort).texts.Nodup := hperm.nodup_iff.mpr h.nodup
      refine ⟨hnodup, ?_, fun _ => ?_⟩
      · intro text
        have hmem : text ∈ (t.step .sort).texts ↔ text ∈ t.texts := hperm.mem_iff
        rw [hmem, h.mem]
        simp [Call.adds]
      · apply ((CString.pairwise_insertionSort t.texts).and hnodup).imp
        rintro s t ⟨hle, hne⟩
        have hzero : CString.strcmp s t ≠ 0 := fun h => hne (CString.strcmp_eq_zero.mp h)
        exact lt_of_le_of_ne hle hzero

theorem isSet_textsAfter {calls : List Call} (hcalls : ∀ call ∈ calls, call.KeepsSet) :
    (textsAfter calls).IsSet fun text => ∃ call ∈ calls, call.adds = some text := by
  induction calls using List.reverseRecOn with
  | nil => exact ⟨List.nodup_nil, by simp [textsAfter], fun hno => by cases hno⟩
  | append_singleton calls call ih =>
      obtain ⟨hfront, hlast⟩ := List.forall_mem_append.mp hcalls
      have hstep := (ih hfront).step (List.forall_mem_singleton.mp hlast)
      rw [textsAfter, List.foldl_append]
      refine ⟨hstep.nodup, ?_, hstep.sorted⟩
      intro text
      refine (hstep.mem text).trans ?_
      simp only [List.mem_append, List.mem_singleton, or_and_right, exists_or, exists_eq_left]

/-- `add_string_list` makes the list a set: it has every string once that was added. While it is
sorted, they are in the order of `strcmp`, and a search says which strings were added. -/
theorem string_set_spec {blocks : ℕ → UInt8} {cells : ℕ → Option StringT} {calls : List Call}
    {lst : PointerList StringT} (hcalls : ∀ call ∈ calls, call.KeepsSet)
    (hrun : after blocks cells calls = .ok lst) :
    ∃ texts, HoldsStrings texts lst ∧ texts.Nodup ∧
      (∀ text, text ∈ texts ↔ ∃ call ∈ calls, call.adds = some text) ∧
      (lst.isSorted = true → texts.Pairwise (fun s t => CString.strcmp s t < 0) ∧
        ∀ key : StringT.HeldString, ∃ idx, findStringList lst key.str = .ok idx ∧
          (idx ≠ -1 ↔ ∃ call ∈ calls, call.adds = some key.text)) := by
  have hrefines := refines_after hrun
  have hset := isSet_textsAfter hcalls
  refine ⟨(textsAfter calls).texts, hrefines.holdsStrings, hset.nodup, hset.mem, ?_⟩
  intro hmark
  have hsorted := hrefines.sorted.symm.trans hmark
  refine ⟨hset.sorted hsorted, fun key => ?_⟩
  obtain ⟨idx, hfind, hfinds⟩ := hrefines.findStringList key
  refine ⟨idx, hfind, ?_⟩
  rw [← hset.mem]
  rcases hfinds with ⟨-, i, rfl, hi⟩ | ⟨rfl, hnone⟩
  · exact iff_of_true (by omega) (List.mem_of_getElem? hi)
  · exact iff_of_false (not_not_intro rfl) (hnone hsorted)

/-- A string of one letter, in a new buffer. -/
def letter (b : UInt8) (hb : b ≠ 0) : StringT.HeldString where
  str := ⟨b :: List.replicate 7 0, 1, 8⟩
  text := ⟨[b], by simpa using hb.symm⟩
  holds := ⟨rfl, ⟨List.replicate 6 0, rfl⟩, rfl, show 1 + 1 ≤ 8 by decide⟩

/-- `b`, `a` and again `b`, sorted. -/
def addLetters : List Call :=
  [.add (letter 98 (by decide)), .add (letter 97 (by decide)), .add (letter 98 (by decide)), .sort]

theorem string_list_letters : ∃ lst, after (fun _ => 0) (fun _ => none) addLetters = .ok lst ∧
    HoldsStrings (textsAfter addLetters).texts lst := by
  obtain ⟨lst, hrun⟩ := exists_of_isOk (x := after (fun _ => 0) (fun _ => none) addLetters)
    (by decide)
  exact ⟨lst, hrun, (string_list_spec hrun).1⟩

theorem string_set_letters : ∃ lst texts,
    after (fun _ => 0) (fun _ => none) addLetters = .ok lst ∧ HoldsStrings texts lst ∧
      texts.Nodup := by
  obtain ⟨lst, hrun⟩ := exists_of_isOk (x := after (fun _ => 0) (fun _ => none) addLetters)
    (by decide)
  have hcalls : ∀ call ∈ addLetters, call.KeepsSet := by simp [addLetters, Call.KeepsSet]
  obtain ⟨texts, hholds, hnodup, -⟩ := string_set_spec hcalls hrun
  exact ⟨lst, texts, hrun, hholds, hnodup⟩

end StringList

end SimpleVm
