import Mathlib.Data.List.Forall2
import SimpleVm.Common.PointerList
import SimpleVm.Common.StringLaw
import SimpleVm.Common.StringList

/-!
# Splitting a string

The string is copied and the copy is cut at every separator, a piece at a
time. The pieces are those of the list that the command line keeps, and joined
with the separator they are the string, without a separator at its end.
-/

namespace SimpleVm

namespace StringSplit

/-! ## The source -/

/-- The first separator in the string at `head`, if there is one. -/
def strchr (block : List UInt8) (head : ℕ) (ch : ℤ) : Except Halt (Option ℕ) :=
  match (block.drop head).findIdx? fun b => b = charOf ch ∨ b = 0 with
  | some i => .ok (if block[head + i]? = some (charOf ch) then some (head + i) else none)
  | none => .error .invalidAccess

/-- `create_string(head)` -/
def createPiece (fresh : ℕ → UInt8) (block : List UInt8) (head : ℕ) : Except Halt StringT :=
  if 0 ∈ block.drop head then
    StringT.createString fresh (some (CString.read (block.drop head)))
  else .error .invalidAccess

/-- The loop of `split_string` on the copy; `fuel` bounds its rounds. -/
def splitLoop (fresh : ℕ → UInt8) (cells : ℕ → Option StringT) (ch : ℤ) :
    ℕ → List UInt8 → ℕ → PointerList StringT → Except Halt (PointerList StringT)
  | 0, _, _, _ => .error .diverges
  | fuel + 1, block, head, sl => do
      let tail ← strchr block head ch
      match tail with
      | some tail => do
          let block ← writeBlock block tail [0]
          let piece ← createPiece fresh block head
          let sl ← sl.appendPtrList cells (some piece)
          match block[tail + 1]? with
          | some b =>
              if b = 0 then .ok sl else splitLoop fresh cells ch fuel block (tail + 1) sl
          | none => .error .invalidAccess
      | none => do
          let piece ← createPiece fresh block head
          sl.appendPtrList cells (some piece)

def splitString (fresh : ℕ → UInt8) (cells : ℕ → Option StringT) (str : CString) (ch : ℤ) :
    Except Halt (PointerList StringT) := do
  let buf ← StringT.createString fresh (some str)
  splitLoop fresh cells ch (str.strlen + 1) buf.buffer 0 PointerList.createPtrList

/-! ## What is to come of it -/

def joinWith (c : UInt8) (texts : List CString) : List UInt8 :=
  List.intercalate [c] (texts.map CString.bytes)

def withoutLast (c : UInt8) (s : List UInt8) : List UInt8 :=
  if s.getLast? = some c then s.dropLast else s

/-- The strings of the list have these texts. -/
def HoldsStrings (texts : List CString) (lst : PointerList StringT) : Prop :=
  ∃ elems, PointerList.Holds elems lst ∧
    List.Forall₂ (fun ptr text => ∃ str, ptr = some str ∧ StringT.Holds text str) elems texts

def SplitsWell (fresh : ℕ → UInt8) (cells : ℕ → Option StringT) (str : CString) (ch : ℤ) : Prop :=
  ∃ lst texts, splitString fresh cells str ch = .ok lst ∧ HoldsStrings texts lst ∧ texts ≠ [] ∧
    (∀ text ∈ texts, charOf ch ∉ text.bytes) ∧
    joinWith (charOf ch) texts = withoutLast (charOf ch) str.bytes

/-! ## The pieces -/

theorem splitFrom_of_notMem {c : UInt8} {s : List UInt8} (h : c ∉ s) (acc : List UInt8) :
    StringList.splitFrom c acc s = StringList.singleton (CString.read (acc ++ s)) := by
  induction s generalizing acc with
  | nil => rw [StringList.splitFrom, List.append_nil]
  | cons b s ih =>
      have hb : b ≠ c := fun heq => h (heq ▸ List.mem_cons_self)
      rw [StringList.splitFrom, if_neg hb, ih fun hmem => h (List.mem_cons_of_mem b hmem),
        List.append_assoc, List.singleton_append]

theorem splitFrom_append {c : UInt8} {piece : List UInt8} (h : c ∉ piece) (acc more : List UInt8) :
    StringList.splitFrom c acc (piece ++ c :: more) =
      if more = [] then StringList.singleton (CString.read (acc ++ piece))
      else StringList.cons (CString.read (acc ++ piece)) (StringList.splitFrom c [] more) := by
  induction piece generalizing acc with
  | nil => rw [List.nil_append, StringList.splitFrom, if_pos rfl, List.append_nil]
  | cons b piece ih =>
      have hb : b ≠ c := fun heq => h (heq ▸ List.mem_cons_self)
      rw [List.cons_append, StringList.splitFrom, if_neg hb,
        ih fun hmem => h (List.mem_cons_of_mem b hmem), List.append_assoc, List.singleton_append]

theorem read_of_notMem {s : List UInt8} (h : 0 ∉ s) : CString.read s = ⟨s, h⟩ :=
  CString.read_bytes ⟨s, h⟩

theorem withoutLast_of_notMem {c : UInt8} {s : List UInt8} (h : c ∉ s) : withoutLast c s = s := by
  rw [withoutLast, if_neg fun hlast => h (List.mem_of_getLast? hlast)]

theorem withoutLast_append {c : UInt8} (piece : List UInt8) {more : List UInt8}
    (hne : more ≠ []) :
    withoutLast c (piece ++ c :: more) = piece ++ c :: withoutLast c more := by
  have hlast : (piece ++ c :: more).getLast? = more.getLast? := by
    rw [List.getLast?_append, List.getLast?_cons_of_ne_nil hne]
    simp [List.getLast?_eq_some_getLast hne]
  have hdrop : (piece ++ c :: more).dropLast = piece ++ c :: more.dropLast := by
    rw [List.dropLast_append_of_ne_nil (List.cons_ne_nil c more), List.dropLast_cons_of_ne_nil hne]
  simp only [withoutLast, hlast, hdrop]
  split <;> rfl

theorem joinWith_singleton (c : UInt8) (text : CString) : joinWith c [text] = text.bytes :=
  List.intercalate_singleton

theorem joinWith_cons (c : UInt8) (text : CString) {texts : List CString} (hne : texts ≠ []) :
    joinWith c (text :: texts) = text.bytes ++ c :: joinWith c texts := by
  obtain ⟨next, texts, rfl⟩ := List.exists_cons_of_ne_nil hne
  rw [joinWith, joinWith, List.map_cons, List.map_cons, List.intercalate_cons_cons,
    List.append_assoc, List.singleton_append]

/-- What is cut off in front of the first separator, if there is one. -/
theorem split_cases (c : UInt8) (s : List UInt8) :
    c ∉ s ∨ ∃ piece more, s = piece ++ c :: more ∧ c ∉ piece := by
  by_cases h : c ∈ s
  · obtain ⟨piece, more, hs, hpiece⟩ := List.eq_append_cons_of_mem h
    exact .inr ⟨piece, more, hs, hpiece⟩
  · exact .inl h

theorem toList_ne_nil (lst : StringList) : lst.toList ≠ [] := List.cons_ne_nil _ _

theorem splitFrom_spec (c : UInt8) {n : ℕ} {s : List UInt8} (hlen : s.length ≤ n) (hs : 0 ∉ s) :
    (∀ text ∈ (StringList.splitFrom c [] s).toList, c ∉ text.bytes) ∧
      joinWith c (StringList.splitFrom c [] s).toList = withoutLast c s := by
  induction n generalizing s with
  | zero =>
      obtain rfl := List.length_eq_zero_iff.mp (Nat.le_zero.mp hlen)
      refine ⟨?_, rfl⟩
      intro text htext
      rw [List.mem_singleton.mp htext]
      exact List.not_mem_nil
  | succ n ih =>
      rcases split_cases c s with hnone | ⟨piece, more, rfl, hpiece⟩
      · rw [splitFrom_of_notMem hnone, List.nil_append, read_of_notMem hs]
        refine ⟨?_, ?_⟩
        · intro text htext
          rw [List.mem_singleton.mp htext]
          exact hnone
        · rw [withoutLast_of_notMem hnone]
          exact joinWith_singleton c ⟨s, hs⟩
      · have hnul : 0 ∉ piece := fun hmem => hs (List.mem_append_left _ hmem)
        rw [splitFrom_append hpiece, List.nil_append, read_of_notMem hnul]
        by_cases hmore : more = []
        · subst hmore
          rw [if_pos rfl]
          refine ⟨?_, ?_⟩
          · intro text htext
            rw [List.mem_singleton.mp htext]
            exact hpiece
          · rw [withoutLast, List.getLast?_concat, if_pos rfl, List.dropLast_concat]
            exact joinWith_singleton c ⟨piece, hnul⟩
        · rw [List.length_append, List.length_cons] at hlen
          have hrest : 0 ∉ more := fun hmem =>
            hs (List.mem_append_right _ (List.mem_cons_of_mem c hmem))
          obtain ⟨hpieces, hjoin⟩ := ih (by omega) hrest
          rw [if_neg hmore]
          refine ⟨?_, ?_⟩
          · intro text htext
            rcases List.mem_cons.mp htext with rfl | htext
            · exact hpiece
            · exact hpieces text htext
          · have hcons : (StringList.cons ⟨piece, hnul⟩ (StringList.splitFrom c [] more)).toList =
                ⟨piece, hnul⟩ :: (StringList.splitFrom c [] more).toList := rfl
            rw [hcons, joinWith_cons c _ (toList_ne_nil _), hjoin, withoutLast_append piece hmore]

/-! ## The loop -/

variable {fresh : ℕ → UInt8} {cells : ℕ → Option StringT} {ch : ℤ} {texts : List CString}
  {lst : PointerList StringT}

/-- The scan ends at the first byte that is the separator or the terminator. -/
theorem strchr_eq {done piece rest : List UInt8} {b : UInt8} (hpiece : charOf ch ∉ piece)
    (hnul : 0 ∉ piece) (hb : b = charOf ch ∨ b = 0) :
    strchr (done ++ piece ++ b :: rest) done.length ch =
      .ok (if b = charOf ch then some (done.length + piece.length) else none) := by
  have hfirst : (piece ++ b :: rest).findIdx? (fun b => decide (b = charOf ch ∨ b = 0)) =
      some piece.length := by
    apply CString.findIdx?_first
    · intro x hx
      apply decide_eq_false
      rintro (rfl | rfl)
      · exact hpiece hx
      · exact hnul hx
    · exact decide_eq_true hb
  have hget : (done ++ piece ++ b :: rest)[done.length + piece.length]? = some b := by
    rw [← List.length_append, List.getElem?_append_right (Nat.le_refl _), Nat.sub_self]
    rfl
  rw [strchr, List.append_assoc, List.drop_left, hfirst]
  dsimp only
  rw [← List.append_assoc, hget]
  simp only [Option.some_inj]

theorem createPiece_spec (fresh : ℕ → UInt8) (done rest : List UInt8) {piece : List UInt8}
    (hnul : 0 ∉ piece) (hfit : piece.length + 1 ≤ 2 ^ 30) :
    ∃ str, createPiece fresh (done ++ piece ++ 0 :: rest) done.length = .ok str ∧
      StringT.Holds ⟨piece, hnul⟩ str := by
  have hdrop : (done ++ piece ++ 0 :: rest).drop done.length = piece ++ 0 :: rest := by
    rw [List.append_assoc, List.drop_left]
  have hread : CString.read (piece ++ 0 :: rest) = ⟨piece, hnul⟩ :=
    CString.read_append_nul ⟨piece, hnul⟩ rest
  have hpiece : ((some (CString.mk piece hnul)).getD CString.empty).strlen + 1 ≤ 2 ^ 30 := hfit
  obtain ⟨str, hrun, -, hstr⟩ := StringT.createString_spec fresh hpiece
  refine ⟨str, ?_, hstr⟩
  rw [createPiece, hdrop, if_pos (by simp), hread, hrun]

theorem HoldsStrings.append (h : HoldsStrings texts lst) (hlen : texts.length < 2 ^ 30)
    (cells : ℕ → Option StringT) {text : CString} {str : StringT} (hstr : StringT.Holds text str) :
    ∃ lst', lst.appendPtrList cells (some str) = .ok lst' ∧
      HoldsStrings (texts ++ [text]) lst' := by
  obtain ⟨elems, hlst, hall⟩ := h
  obtain ⟨lst', hrun, hlst'⟩ := hlst.appendPtrList (hall.length_eq ▸ hlen) cells (some str)
  exact ⟨lst', hrun, _, hlst', List.rel_append hall (.cons ⟨str, rfl, hstr⟩ .nil)⟩

theorem splitLoop_spec (fresh : ℕ → UInt8) (cells : ℕ → Option StringT) (hch : charOf ch ≠ 0)
    {fuel : ℕ} (done rest : List UInt8) {left : List UInt8} (hfuel : left.length < fuel)
    (hleft : 0 ∉ left) (h : HoldsStrings texts lst) (hroom : texts.length + left.length < 2 ^ 30) :
    ∃ lst', splitLoop fresh cells ch fuel (done ++ left ++ 0 :: rest) done.length lst = .ok lst' ∧
      HoldsStrings (texts ++ (StringList.splitFrom (charOf ch) [] left).toList) lst' := by
  induction fuel generalizing done left texts lst with
  | zero => exact absurd hfuel (Nat.not_lt_zero _)
  | succ fuel ih =>
      rw [splitLoop]
      rcases split_cases (charOf ch) left with hnone | ⟨piece, more, rfl, hpiece⟩
      · obtain ⟨str, hcreate, hstr⟩ := createPiece_spec fresh done rest hleft (by omega)
        obtain ⟨lst', happend, hlst'⟩ := h.append (by omega) cells hstr
        refine ⟨lst', ?_, ?_⟩
        · rw [strchr_eq hnone hleft (.inr rfl), if_neg hch.symm, ok_bind]
          dsimp only
          rw [hcreate, ok_bind, happend]
        · rw [splitFrom_of_notMem hnone, List.nil_append, read_of_notMem hleft]
          exact hlst'
      · have hnul : 0 ∉ piece := fun hmem => hleft (List.mem_append_left _ hmem)
        rw [List.length_append, List.length_cons] at hfuel hroom
        have hblock : done ++ (piece ++ charOf ch :: more) ++ 0 :: rest =
            done ++ piece ++ charOf ch :: (more ++ 0 :: rest) := by
          simp only [List.append_assoc, List.cons_append]
        obtain ⟨str, hcreate, hstr⟩ :=
          createPiece_spec fresh done (more ++ 0 :: rest) hnul (by omega)
        obtain ⟨lst₁, happend, h₁⟩ := h.append (by omega) cells hstr
        have hnext : (done ++ piece ++ 0 :: (more ++ 0 :: rest))[done.length + piece.length + 1]? =
            some (more.headD 0) := by
          rw [← List.length_append, List.getElem?_append_right (Nat.le_add_right _ 1),
            Nat.add_sub_cancel_left]
          cases more <;> rfl
        rw [hblock, strchr_eq hpiece hnul (.inl rfl), if_pos rfl, ok_bind]
        dsimp only
        rw [← List.length_append, StringT.writeBlock_cut, ok_bind, hcreate, ok_bind, happend,
          ok_bind, List.length_append, hnext, splitFrom_append hpiece, List.nil_append,
          read_of_notMem hnul]
        dsimp only
        by_cases hmore : more = []
        · subst hmore
          have hend : ([] : List UInt8).headD 0 = 0 := rfl
          rw [if_pos hend, if_pos rfl]
          exact ⟨lst₁, rfl, h₁⟩
        · have hrest : 0 ∉ more := fun hmem =>
            hleft (List.mem_append_right _ (List.mem_cons_of_mem _ hmem))
          have hhead : more.headD 0 ≠ 0 := by
            obtain ⟨b, bs, rfl⟩ := List.exists_cons_of_ne_nil hmore
            rintro rfl
            exact hrest List.mem_cons_self
          rw [if_neg hhead, if_neg hmore]
          have hcount : (texts ++ [CString.mk piece hnul]).length + more.length < 2 ^ 30 := by
            rw [List.length_append, List.length_singleton]
            omega
          obtain ⟨lst', hrun, hlst'⟩ :=
            ih (done ++ piece ++ [0]) (by omega) hrest h₁ hcount
          have hcut : done ++ piece ++ [0] ++ more ++ 0 :: rest =
              done ++ piece ++ 0 :: (more ++ 0 :: rest) := by
            simp only [List.append_assoc, List.cons_append, List.nil_append]
          refine ⟨lst', ?_, ?_⟩
          · rw [List.length_append, List.length_append, List.length_singleton, hcut] at hrun
            exact hrun
          · rw [List.append_assoc, List.singleton_append] at hlst'
            exact hlst'

theorem holdsStrings_create : HoldsStrings [] PointerList.createPtrList :=
  ⟨[], PointerList.holds_create, .nil⟩

/-- Every string that can be copied is split into its pieces. -/
theorem splitString_spec (fresh : ℕ → UInt8) (cells : ℕ → Option StringT) {str : CString}
    (hch : charOf ch ≠ 0) (hfit : str.strlen + 1 ≤ 2 ^ 30) :
    ∃ lst, splitString fresh cells str ch = .ok lst ∧
      HoldsStrings (StringList.splitString str (charOf ch)).toList lst := by
  have hcopy : ((some str).getD CString.empty).strlen + 1 ≤ 2 ^ 30 := hfit
  obtain ⟨buf, hcreate, -, hbuf⟩ := StringT.createString_spec fresh hcopy
  obtain ⟨rest, hrest⟩ := hbuf.text_starts
  have hroom : ([] : List CString).length + str.bytes.length < 2 ^ 30 := by
    rw [List.length_nil, Nat.zero_add]
    exact hfit
  obtain ⟨lst, hrun, hlst⟩ := splitLoop_spec fresh cells hch [] rest
    (Nat.lt_succ_self str.bytes.length) str.nul_notMem holdsStrings_create hroom
  refine ⟨lst, ?_, hlst⟩
  have hblock : buf.buffer = [] ++ str.bytes ++ 0 :: rest := by
    rw [← hrest, List.append_assoc]
    rfl
  rw [splitString, hcreate, ok_bind, hblock]
  exact hrun

/-- A string is split and joined again whenever it can be copied. -/
theorem splits_well_iff (fresh : ℕ → UInt8) (cells : ℕ → Option StringT) (str : CString) {ch : ℤ}
    (hch : charOf ch ≠ 0) : SplitsWell fresh cells str ch ↔ str.strlen + 1 ≤ 2 ^ 30 := by
  constructor
  · rintro ⟨lst, texts, hrun, -⟩
    rw [splitString] at hrun
    obtain ⟨buf, hcreate, -⟩ := bind_eq_ok.mp hrun
    exact StringT.createString_fits hcreate
  · intro hfit
    obtain ⟨lst, hrun, hlst⟩ := splitString_spec fresh cells hch hfit
    obtain ⟨hpieces, hjoin⟩ := splitFrom_spec (charOf ch) le_rfl str.nul_notMem
    exact ⟨lst, _, hrun, hlst, toList_ne_nil _, hpieces, hjoin⟩

theorem splits_well_colons_iff :
    SplitsWell (fun _ => 0) (fun _ => none) ⟨[58, 58], by decide⟩ 58 ↔
      (CString.mk [58, 58] (by decide)).strlen + 1 ≤ 2 ^ 30 :=
  splits_well_iff _ _ _ (by decide)

/-- The capacity of the copy is doubled for ever. -/
theorem not_splits_well_huge :
    ¬ ∀ (str : CString) (ch : ℤ), charOf ch ≠ 0 →
      SplitsWell (fun _ => 0) (fun _ => none) str ch := by
  intro hall
  have hnul : (0 : UInt8) ∉ List.replicate (2 ^ 30) 97 := by
    intro hmem
    cases List.eq_of_mem_replicate hmem
  obtain ⟨lst, texts, hrun, -⟩ := hall ⟨List.replicate (2 ^ 30) 97, hnul⟩ 58 (by decide)
  rw [splitString] at hrun
  obtain ⟨buf, hcreate, -⟩ := bind_eq_ok.mp hrun
  have hfit : (CString.mk (List.replicate (2 ^ 30) 97) hnul).strlen + 1 ≤ 2 ^ 30 :=
    StringT.createString_fits hcreate
  rw [CString.strlen, List.length_replicate] at hfit
  omega

end StringSplit

end SimpleVm
