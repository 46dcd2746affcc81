import Mathlib.Data.List.DropRight
import SimpleVm.Common.StringLaw

/-!
# Trimming a string

The first loop writes terminators over the white space at the end, the second
counts the white space in front, and what is left is moved down. The first
loop looks at the byte before it looks at its bound.
-/

namespace SimpleVm

/-- `isspace` in the C locale. -/
def isspace (b : UInt8) : Bool := b = 32 ∨ 9 ≤ b ∧ b ≤ 13

def memmove (block : List UInt8) (dest src n : ℕ) : Except Halt (List UInt8) :=
  match Block.load? block src n with
  | some cells => writeBlock block dest cells
  | none => .error .invalidAccess

namespace StringT

/-! ## The source -/

/-- The first loop of `strip_space` when its `len` is one less than the first
argument; zero is the position in front of the buffer. -/
def stripBack : ℕ → List UInt8 → Except Halt (List UInt8)
  | 0, _ => .error .invalidAccess
  | len + 1, block =>
      match block[len]? with
      | some b =>
          if isspace b ∨ b = 0 then do
            let block ← writeBlock block len [0]
            stripBack len block
          else .ok block
      | none => .error .invalidAccess

/-- The second loop: how much white space is in front. -/
def skipSpace : List UInt8 → Except Halt ℕ
  | [] => .error .invalidAccess
  | b :: block =>
      if b ≠ 0 ∧ isspace b then do
        let len ← skipSpace block
        .ok (len + 1)
      else .ok 0

def stripSpace (buf : StringT) : Except Halt StringT := do
  let len ← strlenBlock buf.buffer
  let buffer ← stripBack (toInt len + 1).toNat buf.buffer
  let len ← skipSpace buffer
  let n ← strlenBlock (buffer.drop len)
  let buffer ← memmove buffer 0 len (n + 1)
  .ok { buf with buffer := buffer }

/-- `buf->buffer[strlen(buf->buffer) - 1] = 0;` -/
def cutLast (block : List UInt8) : Except Halt (List UInt8) := do
  let n ← strlenBlock block
  if n = 0 then .error .invalidAccess else writeBlock block (n - 1) [0]

def stripEnds (buf : StringT) : Except Halt StringT := do
  let buf ← stripSpace buf
  let buffer ← cutLast buf.buffer
  let n ← strlenBlock buffer
  let buffer ← memmove buffer 0 1 n
  .ok { buf with buffer := buffer }

/-! ## What is to come of it -/

/-- The buffer holds `text` inside its block, whatever its `len` says. -/
structure HasText (text : CString) (buf : StringT) : Prop where
  length_buffer : buf.buffer.length = buf.cap
  text_starts : text.bytes ++ [0] <+: buf.buffer
  cap_int : buf.cap < 2 ^ 31

end StringT

namespace CString

theorem notMem_of_sublist {s : CString} {bytes : List UInt8} (h : bytes.Sublist s.bytes) :
    0 ∉ bytes := fun hmem => s.nul_notMem (h.subset hmem)

/-- Without the white space at its end. -/
def trimEnd (s : CString) : CString where
  bytes := s.bytes.rdropWhile isspace
  nul_notMem := notMem_of_sublist (s := s) (List.rdropWhile_prefix _ _).sublist

def trim (s : CString) : CString where
  bytes := s.trimEnd.bytes.dropWhile isspace
  nul_notMem := notMem_of_sublist (s := s.trimEnd) (List.dropWhile_suffix _).sublist

/-- Without its first and its last character. -/
def inner (s : CString) : CString where
  bytes := s.bytes.tail.dropLast
  nul_notMem := notMem_of_sublist (s := s)
    ((List.dropLast_sublist _).trans (List.tail_sublist _))

/-- What is taken off at both ends is white space. -/
theorem exists_eq_trim (s : CString) :
    ∃ front back, s.bytes = front ++ s.trim.bytes ++ back ∧
      (∀ b ∈ front, isspace b = true) ∧ ∀ b ∈ back, isspace b = true := by
  refine ⟨s.trimEnd.bytes.takeWhile isspace, s.bytes.rtakeWhile isspace, ?_, ?_, ?_⟩
  · have hfront : s.trimEnd.bytes.takeWhile isspace ++ s.trim.bytes = s.trimEnd.bytes :=
      List.takeWhile_append_dropWhile
    rw [hfront]
    exact List.rdropWhile_append_rtakeWhile.symm
  · intro b hb
    exact List.mem_takeWhile_imp hb
  · intro b hb
    exact List.mem_rtakeWhile_imp hb

theorem trimEnd_eq_nil_iff (s : CString) :
    s.trimEnd.bytes = [] ↔ ∀ b ∈ s.bytes, isspace b = true := List.rdropWhile_eq_nil_iff

theorem trimEnd_ne_nil {s : CString} (hchar : ∃ b ∈ s.bytes, isspace b = false) :
    s.trimEnd.bytes ≠ [] := by
  intro hnil
  obtain ⟨b, hb, hspace⟩ := hchar
  rw [s.trimEnd_eq_nil_iff.mp hnil b hb] at hspace
  cases hspace

theorem exists_trimEnd_concat {s : CString} (h : s.trimEnd.bytes ≠ []) :
    ∃ body b, s.trimEnd.bytes = body ++ [b] ∧ isspace b = false ∧ b ≠ 0 := by
  refine ⟨_, _, (List.dropLast_append_getLast h).symm, ?_, ?_⟩
  · exact Bool.eq_false_of_not_eq_true (List.rdropWhile_last_not isspace s.bytes h)
  · intro hzero
    exact s.trimEnd.nul_notMem (hzero ▸ List.getLast_mem h)

theorem exists_trim_cons {s : CString} (h : s.trimEnd.bytes ≠ []) :
    ∃ b body, s.trim.bytes = b :: body ∧ isspace b = false := by
  obtain ⟨body, b, hbody, hb, -⟩ := exists_trimEnd_concat h
  have hne : s.trim.bytes ≠ [] := by
    intro hnil
    have hall := List.dropWhile_eq_nil_iff.mp hnil b (hbody ▸ List.mem_concat_self)
    rw [hb] at hall
    cases hall
  refine ⟨_, _, (List.cons_head_tail hne).symm, ?_⟩
  exact List.head_dropWhile_not isspace hne

end CString

namespace StringT

/-! ## The two loops -/

theorem getElem?_concat_length (pre : List UInt8) (b : UInt8) (rest : List UInt8) :
    (pre ++ b :: rest)[pre.length]? = some b := by
  rw [List.getElem?_append_right (Nat.le_refl _), Nat.sub_self]
  rfl

/-- White space and terminators in front of the position become terminators. -/
theorem stripBack_append (body : List UInt8) {tail : List UInt8}
    (htail : ∀ b ∈ tail, isspace b = true ∨ b = 0) (rest : List UInt8) :
    stripBack (body.length + tail.length) (body ++ tail ++ rest) =
      stripBack body.length (body ++ List.replicate tail.length 0 ++ rest) := by
  induction tail using List.reverseRecOn generalizing rest with
  | nil => rfl
  | append_singleton tail b ih =>
      have hb := htail b List.mem_concat_self
      have hblock : body ++ (tail ++ [b]) ++ rest = (body ++ tail) ++ b :: rest := by
        simp only [List.append_assoc, List.singleton_append]
      have hzeros : body ++ List.replicate tail.length 0 ++ 0 :: rest =
          body ++ List.replicate (tail.length + 1) 0 ++ rest := by
        rw [List.replicate_succ', List.append_assoc, List.append_assoc, List.append_assoc,
          List.singleton_append]
      rw [hblock, List.length_append, List.length_singleton, ← Nat.add_assoc, stripBack,
        ← List.length_append, getElem?_concat_length]
      dsimp only
      rw [if_pos hb, writeBlock_cut, ok_bind, List.length_append,
        ih fun c hc => htail c (List.mem_append_left _ hc), hzeros]

theorem stripBack_stop (body : List UInt8) {b : UInt8} (hspace : isspace b = false) (hb : b ≠ 0)
    (rest : List UInt8) :
    stripBack (body.length + 1) (body ++ b :: rest) = .ok (body ++ b :: rest) := by
  rw [stripBack, getElem?_concat_length]
  dsimp only
  rw [if_neg]
  rintro (hsp | hzero)
  · rw [hspace] at hsp
    cases hsp
  · exact hb hzero

theorem skipSpace_append {front : List UInt8} (hfront : ∀ b ∈ front, isspace b = true) {b : UInt8}
    (hb : isspace b = false) (rest : List UInt8) :
    skipSpace (front ++ b :: rest) = .ok front.length := by
  induction front with
  | nil =>
      rw [List.nil_append, skipSpace, if_neg]
      · rfl
      · rintro ⟨-, hspace⟩
        rw [hb] at hspace
        cases hspace
  | cons a front ih =>
      have ha := hfront a List.mem_cons_self
      have hne : a ≠ 0 := by
        rintro rfl
        cases ha
      rw [List.cons_append, skipSpace, if_pos ⟨hne, ha⟩,
        ih fun c hc => hfront c (List.mem_cons_of_mem a hc)]
      rfl

/-- Bytes that are moved to the front of the block. -/
theorem memmove_front (pre cells post : List UInt8) :
    ∃ block, memmove (pre ++ cells ++ post) 0 pre.length cells.length = .ok block ∧
      block.length = (pre ++ cells ++ post).length ∧ cells <+: block := by
  have hroom : ([] : List UInt8).length + cells.length ≤ (pre ++ cells ++ post).length := by
    simp only [List.length_append, List.length_nil]
    omega
  obtain ⟨block, hwrite, hlength, hstarts⟩ := writeBlock_text cells List.nil_prefix hroom
  refine ⟨block, ?_, hlength, hstarts⟩
  rw [memmove, Block.load?_inside List.prefix_rfl]
  exact hwrite

/-- A string and its terminator are moved down without the first character. -/
theorem memmove_tail (body rest : List UInt8) :
    ∃ block, memmove (body ++ 0 :: 0 :: rest) 0 1 body.length = .ok block ∧
      block.length = (body ++ 0 :: 0 :: rest).length ∧ body.tail ++ [0] <+: block := by
  cases body with
  | nil => exact ⟨0 :: 0 :: rest, rfl, rfl, 0 :: rest, rfl⟩
  | cons a body =>
      have hcut : [a] ++ (body ++ [0]) ++ 0 :: rest = a :: body ++ 0 :: 0 :: rest := by
        simp only [List.append_assoc, List.cons_append, List.nil_append]
      obtain ⟨block, hmove, hlength, hstarts⟩ := memmove_front [a] (body ++ [0]) (0 :: rest)
      rw [hcut, List.length_append, List.length_singleton, List.length_singleton] at hmove
      rw [hcut] at hlength
      exact ⟨block, hmove, hlength, hstarts⟩

/-! ## The two operations -/

namespace HasText

variable {text : CString} {buf : StringT} (h : HasText text buf)

include h

/-- The first loop starts at the terminator. -/
theorem stripBack_eq : ∃ rest, strlenBlock buf.buffer = .ok text.strlen ∧
    stripBack (toInt text.strlen + 1).toNat buf.buffer =
      stripBack text.trimEnd.bytes.length (text.trimEnd.bytes ++ 0 :: rest) ∧
    (text.trimEnd.bytes ++ 0 :: rest).length = buf.cap := by
  obtain ⟨rest, hrest⟩ := h.text_starts
  have hlen : text.bytes.length + 1 + rest.length = buf.cap := by
    rw [← h.length_buffer, ← hrest, List.length_append, List.length_append, List.length_singleton]
  have hint : (toInt text.strlen + 1).toNat = text.bytes.length + 1 := by
    have hcap := h.cap_int
    have hstrlen : text.strlen = text.bytes.length := rfl
    rw [toInt_of_lt (by omega) (by omega)]
    omega
  have hsplit : text.trimEnd.bytes ++ text.bytes.rtakeWhile isspace = text.bytes :=
    List.rdropWhile_append_rtakeWhile
  have hcount := congrArg List.length hsplit
  rw [List.length_append] at hcount
  have htail : ∀ b ∈ text.bytes.rtakeWhile isspace ++ [0], isspace b = true ∨ b = 0 := by
    intro b hb
    rcases List.mem_append.mp hb with hb | hb
    · exact .inl (List.mem_rtakeWhile_imp hb)
    · exact .inr (List.mem_singleton.mp hb)
  have hback := stripBack_append text.trimEnd.bytes htail rest
  rw [← List.append_assoc, hsplit, hrest, List.length_append, List.length_singleton,
    ← Nat.add_assoc, hcount, List.replicate_succ, List.append_assoc, List.cons_append] at hback
  refine ⟨List.replicate (text.bytes.rtakeWhile isspace).length 0 ++ rest,
    strlenBlock_eq h.text_starts, ?_, ?_⟩
  · rw [hint]
    exact hback
  · simp only [List.length_append, List.length_cons, List.length_replicate]
    omega

/-- With nothing but white space the loop looks in front of the buffer. -/
theorem stripSpace_outside (hspace : ∀ b ∈ text.bytes, isspace b = true) :
    buf.stripSpace = .error .invalidAccess := by
  obtain ⟨rest, hstrlen, hback, -⟩ := h.stripBack_eq
  rw [text.trimEnd_eq_nil_iff.mpr hspace] at hback
  rw [StringT.stripSpace, hstrlen, ok_bind, hback]
  rfl

theorem stripSpace (hchar : ∃ b ∈ text.bytes, isspace b = false) :
    ∃ buf', buf.stripSpace = .ok buf' ∧ buf'.len = buf.len ∧ buf'.cap = buf.cap ∧
      HasText text.trim buf' := by
  have hne := CString.trimEnd_ne_nil hchar
  obtain ⟨rest, hstrlen, hback, hlength⟩ := h.stripBack_eq
  obtain ⟨body, b, hbody, hspace, hb⟩ := CString.exists_trimEnd_concat hne
  have hstop : stripBack text.trimEnd.bytes.length (text.trimEnd.bytes ++ 0 :: rest) =
      .ok (text.trimEnd.bytes ++ 0 :: rest) := by
    rw [hbody, List.append_assoc, List.singleton_append, List.length_append,
      List.length_singleton]
    exact stripBack_stop body hspace hb _
  -- the block, cut where the second loop stops
  obtain ⟨c, core, hcore, hc⟩ := CString.exists_trim_cons hne
  have hfront : text.trimEnd.bytes.takeWhile isspace ++ text.trim.bytes = text.trimEnd.bytes :=
    List.takeWhile_append_dropWhile
  generalize hspaces : text.trimEnd.bytes.takeWhile isspace = front at hfront
  have hall : ∀ b ∈ front, isspace b = true := by
    intro b hb
    rw [← hspaces] at hb
    exact List.mem_takeWhile_imp hb
  have hblock : text.trimEnd.bytes ++ 0 :: rest = front ++ (text.trim.bytes ++ [0]) ++ rest := by
    rw [← hfront]
    simp only [List.append_assoc, List.singleton_append]
  have hskip : skipSpace (text.trimEnd.bytes ++ 0 :: rest) = .ok front.length := by
    rw [← hfront, hcore, List.append_assoc, List.cons_append]
    exact skipSpace_append hall hc _
  have hleft : strlenBlock ((text.trimEnd.bytes ++ 0 :: rest).drop front.length) =
      .ok text.trim.strlen := by
    rw [hblock, List.append_assoc, List.drop_left]
    exact strlenBlock_eq (List.prefix_append _ _)
  obtain ⟨block, hmove, hsame, hstarts⟩ := memmove_front front (text.trim.bytes ++ [0]) rest
  rw [← hblock] at hmove hsame
  refine ⟨⟨block, buf.len, buf.cap⟩, ?_, rfl, rfl, hsame.trans hlength, hstarts, h.cap_int⟩
  rw [StringT.stripSpace, hstrlen, ok_bind, hback, hstop, ok_bind, hskip, ok_bind, hleft, ok_bind]
  have hn : text.trim.strlen + 1 = (text.trim.bytes ++ [0]).length := by
    rw [CString.strlen, List.length_append, List.length_singleton]
  rw [hn, hmove, ok_bind]

theorem exists_of_stripSpace {buf' : StringT} (hrun : buf.stripSpace = .ok buf') :
    ∃ b ∈ text.bytes, isspace b = false := by
  by_contra hnone
  push Not at hnone
  rw [h.stripSpace_outside fun b hb => Bool.eq_true_of_not_eq_false (hnone b hb)] at hrun
  cases hrun

/-- The last character is overwritten, then the rest is moved onto the first. -/
theorem cutEnds (hne : text.bytes ≠ []) :
    ∃ cut n buffer, cutLast buf.buffer = .ok cut ∧ strlenBlock cut = .ok n ∧
      memmove cut 0 1 n = .ok buffer ∧ HasText text.inner { buf with buffer := buffer } := by
  obtain ⟨rest, hrest⟩ := h.text_starts
  obtain ⟨body, b, hbytes⟩ := (List.eq_nil_or_concat' text.bytes).resolve_left hne
  have hnul : 0 ∉ body := fun hmem => text.nul_notMem (hbytes ▸ List.mem_append_left _ hmem)
  have hcount : text.strlen = body.length + 1 := by
    rw [CString.strlen, hbytes, List.length_append, List.length_singleton]
  have hblock : buf.buffer = body ++ b :: 0 :: rest := by
    rw [← hrest, hbytes]
    simp only [List.append_assoc, List.cons_append, List.nil_append]
  have hinner : text.inner.bytes = body.tail := by
    have htail : text.inner.bytes = text.bytes.tail.dropLast := rfl
    rw [htail, hbytes]
    cases body with
    | nil => rfl
    | cons a body => exact List.dropLast_concat
  obtain ⟨buffer, hmove, hlength, hstarts⟩ := memmove_tail body rest
  refine ⟨body ++ 0 :: 0 :: rest, body.length, buffer, ?_, ?_, hmove, ?_, ?_, h.cap_int⟩
  · rw [cutLast, strlenBlock_eq h.text_starts, ok_bind, hcount, if_neg (Nat.succ_ne_zero _),
      Nat.add_sub_cancel, hblock, writeBlock_cut]
  · have hprefix : (CString.mk body hnul).bytes ++ [0] <+: body ++ 0 :: 0 :: rest :=
      ⟨0 :: rest, by rw [List.append_assoc, List.singleton_append]⟩
    exact strlenBlock_eq hprefix
  · rw [hlength, ← h.length_buffer, hblock]
    simp only [List.length_append, List.length_cons]
  · rw [hinner]
    exact hstarts

theorem stripEnds (hchar : ∃ b ∈ text.bytes, isspace b = false) :
    ∃ buf', buf.stripEnds = .ok buf' ∧ buf'.len = buf.len ∧ buf'.cap = buf.cap ∧
      HasText text.trim.inner buf' := by
  obtain ⟨trimmed, hstrip, hlen, hcap, htrim⟩ := h.stripSpace hchar
  obtain ⟨c, core, hcore, -⟩ := CString.exists_trim_cons (CString.trimEnd_ne_nil hchar)
  have hne : text.trim.bytes ≠ [] := hcore ▸ List.cons_ne_nil c core
  obtain ⟨cut, n, buffer, hcut, hn, hmove, hinner⟩ := htrim.cutEnds hne
  refine ⟨{ trimmed with buffer := buffer }, ?_, hlen, hcap, hinner⟩
  rw [StringT.stripEnds, hstrip, ok_bind, hcut, ok_bind, hn, ok_bind, hmove, ok_bind]

end HasText

/-- Both operations come back, and leave what they should. -/
def TrimsWell (text : CString) (buf : StringT) : Prop :=
  (∃ buf', buf.stripSpace = .ok buf' ∧ HasText text.trim buf') ∧
    ∃ buf', buf.stripEnds = .ok buf' ∧ HasText text.trim.inner buf'

/-- Trimming works exactly for the strings that are not white space throughout. -/
theorem trims_well_iff {text : CString} {buf : StringT} (h : HasText text buf) :
    TrimsWell text buf ↔ ∃ b ∈ text.bytes, isspace b = false := by
  constructor
  · rintro ⟨⟨buf', hrun, -⟩, -⟩
    exact h.exists_of_stripSpace hrun
  · intro hchar
    obtain ⟨buf', hspace, -, -, htrim⟩ := h.stripSpace hchar
    obtain ⟨buf₂, hends, -, -, hinner⟩ := h.stripEnds hchar
    exact ⟨⟨buf', hspace, htrim⟩, buf₂, hends, hinner⟩

/-- The text `' a"'` in eight bytes. -/
theorem hasText_quoted :
    HasText ⟨[32, 97, 34], by decide⟩ ⟨[32, 97, 34, 0, 0, 0, 0, 0], 3, 8⟩ where
  length_buffer := rfl
  text_starts := ⟨[0, 0, 0, 0], rfl⟩
  cap_int := by norm_num

theorem trims_well_quoted_iff :
    TrimsWell ⟨[32, 97, 34], by decide⟩ ⟨[32, 97, 34, 0, 0, 0, 0, 0], 3, 8⟩ ↔
      ∃ b ∈ [(32 : UInt8), 97, 34], isspace b = false :=
  trims_well_iff hasText_quoted

/-- The loop goes on in front of an empty string. -/
theorem not_trims_well_empty :
    ¬ ∀ (text : CString) (buf : StringT), HasText text buf → TrimsWell text buf := by
  intro hall
  have hempty : HasText CString.empty ⟨List.replicate 8 0, 0, 8⟩ :=
    ⟨rfl, ⟨List.replicate 7 0, rfl⟩, by norm_num⟩
  obtain ⟨⟨buf', hrun, -⟩, -⟩ := hall _ _ hempty
  rw [hempty.stripSpace_outside fun b hb => absurd hb List.not_mem_nil] at hrun
  cases hrun

end StringT

end SimpleVm
