import SimpleVm.Common.StringCoherence

/-!
# Taking a character out of a string

Each round looks for the last place of the character and moves what is behind
it down by one, so what is behind that place has been cleaned already and the
rounds are as many as the places. The move takes one byte more than there is
to take, which is in the block unless the string fills it.
-/

namespace SimpleVm

namespace CString

def without (c : UInt8) (s : CString) : CString where
  bytes := s.bytes.filter (· ≠ c)
  nul_notMem := notMem_of_sublist (s := s) List.filter_sublist

/-- No character is left of it, and the others are in their order. -/
theorem without_spec (c : UInt8) (s : CString) :
    c ∉ (s.without c).bytes ∧ (s.without c).bytes.Sublist s.bytes := by
  refine ⟨?_, List.filter_sublist⟩
  intro hmem
  exact of_decide_eq_true (List.mem_filter.mp hmem).2 rfl

end CString

namespace StringT

/-! ## The loop -/

/-- What is in front of the last `c` and behind it. -/
theorem exists_last_of_mem {c : UInt8} {bytes : List UInt8} (h : c ∈ bytes) :
    ∃ pre post, bytes = pre ++ c :: post ∧ c ∉ post := by
  obtain ⟨post, pre, hsplit, hpost⟩ := List.eq_append_cons_of_mem (List.mem_reverse.mpr h)
  refine ⟨pre.reverse, post.reverse, ?_, fun hmem => hpost (List.mem_reverse.mp hmem)⟩
  rw [← List.reverse_reverse bytes, hsplit]
  simp only [List.reverse_append, List.reverse_cons, List.append_assoc, List.singleton_append]

section Strrchr

variable {text : CString} {block : List UInt8} {ch : ℤ} (hch : charOf ch ≠ 0)
  (hstarts : text.bytes ++ [0] <+: block)

include hstarts

theorem strrchr_eq_findIdx? : strrchr block ch =
    .ok (((0 :: text.bytes.reverse).findIdx? (· = charOf ch)).map (text.strlen - ·)) := by
  have htake : block.take (text.strlen + 1) = text.bytes ++ [0] := by
    have hlen : text.strlen + 1 = (text.bytes ++ [0]).length := by
      rw [CString.strlen, List.length_append, List.length_singleton]
    rw [hlen]
    exact (List.prefix_iff_eq_take.mp hstarts).symm
  rw [strrchr, strlenBlock_eq hstarts, ok_bind, htake, List.reverse_append]
  rfl

include hch

theorem strrchr_of_notMem (hnone : charOf ch ∉ text.bytes) : strrchr block ch = .ok none := by
  have hfind : (0 :: text.bytes.reverse).findIdx? (fun b => decide (b = charOf ch)) = none := by
    rw [List.findIdx?_eq_none_iff]
    intro b hb
    apply decide_eq_false
    rintro rfl
    rcases List.mem_cons.mp hb with hzero | hmem
    · exact hch hzero
    · exact hnone (List.mem_reverse.mp hmem)
  rw [strrchr_eq_findIdx? hstarts, hfind]
  rfl

theorem strrchr_eq {pre post : List UInt8} (htext : text.bytes = pre ++ charOf ch :: post)
    (hpost : charOf ch ∉ post) : strrchr block ch = .ok (some pre.length) := by
  have hreverse : 0 :: text.bytes.reverse = (0 :: post.reverse) ++ charOf ch :: pre.reverse := by
    rw [htext]
    simp only [List.reverse_append, List.reverse_cons, List.append_assoc, List.cons_append,
      List.nil_append]
  have hfind : (0 :: text.bytes.reverse).findIdx? (fun b => decide (b = charOf ch)) =
      some (0 :: post.reverse).length := by
    rw [hreverse]
    apply CString.findIdx?_first
    · intro b hb
      apply decide_eq_false
      rintro rfl
      rcases List.mem_cons.mp hb with hzero | hmem
      · exact hch hzero
      · exact hpost (List.mem_reverse.mp hmem)
    · exact decide_eq_true rfl
  have hindex : text.strlen - (0 :: post.reverse).length = pre.length := by
    rw [CString.strlen, htext, List.length_append, List.length_cons, List.length_cons,
      List.length_reverse]
    omega
  rw [strrchr_eq_findIdx? hstarts, hfind, Option.map_some, hindex]

end Strrchr

/-- One round moves what is behind the character onto it, the terminator and
one byte more. -/
theorem memmove_onto {block pre post : List UInt8} {c : UInt8} (hnul : 0 ∉ pre ++ c :: post)
    (hstarts : pre ++ c :: post ++ [0] <+: block)
    (hroom : (pre ++ c :: post).length + 2 ≤ block.length) :
    ∃ block', strlenBlock (block.drop pre.length) = .ok (post.length + 1) ∧
      memmove block pre.length (pre.length + 1) (post.length + 2) = .ok block' ∧
      block'.length = block.length ∧ pre ++ post ++ [0] <+: block' := by
  obtain ⟨rest, rfl⟩ := hstarts
  have hlen : (pre ++ c :: post ++ [0] ++ rest).length =
      (pre ++ c :: post).length + 1 + rest.length := by
    rw [List.length_append, List.length_append, List.length_singleton]
  have hne : rest ≠ [] := by
    rintro rfl
    rw [hlen, List.length_nil] at hroom
    omega
  obtain ⟨x, rest, rfl⟩ := List.exists_cons_of_ne_nil hne
  have hpost : 0 ∉ c :: post := fun hmem => hnul (List.mem_append_right _ hmem)
  have hblock : pre ++ c :: post ++ [0] ++ x :: rest =
      (pre ++ [c]) ++ (post ++ [0, x]) ++ rest := by
    simp only [List.append_assoc, List.cons_append, List.nil_append]
  have hdrop : (pre ++ c :: post ++ [0] ++ x :: rest).drop pre.length =
      (c :: post) ++ [0] ++ x :: rest := by
    rw [List.append_assoc, List.append_assoc, List.drop_left, List.append_assoc]
  have hload : Block.load? (pre ++ c :: post ++ [0] ++ x :: rest) (pre.length + 1)
      (post.length + 2) = some (post ++ [0, x]) := by
    have hinside : Block.load? ((pre ++ [c]) ++ (post ++ [0, x]) ++ rest) (pre ++ [c]).length
        (post ++ [0, x]).length = some (post ++ [0, x]) := Block.load?_inside List.prefix_rfl
    rw [List.length_append, List.length_append] at hinside
    rw [hblock]
    exact hinside
  have hfits : pre.length + (post ++ [0, x]).length ≤
      (pre ++ c :: post ++ [0] ++ x :: rest).length := by
    simp only [List.length_append, List.length_cons, List.length_nil]
    omega
  have hfront : pre <+: pre ++ c :: post ++ [0] ++ x :: rest := by
    rw [List.append_assoc, List.append_assoc]
    exact List.prefix_append _ _
  obtain ⟨block', hwrite, hlength, hprefix⟩ := writeBlock_text (post ++ [0, x]) hfront hfits
  refine ⟨block', ?_, ?_, hlength, ?_⟩
  · rw [hdrop]
    have hprefix : (CString.mk (c :: post) hpost).bytes ++ [0] <+: c :: post ++ [0] ++ x :: rest :=
      List.prefix_append _ _
    exact strlenBlock_eq hprefix
  · rw [memmove, hload]
    exact hwrite
  · have hshort : pre ++ post ++ [0] <+: pre ++ (post ++ [0, x]) :=
      ⟨[x], by simp only [List.append_assoc, List.cons_append, List.nil_append]⟩
    exact hshort.trans hprefix

theorem removeLoop_spec {ch : ℤ} (hch : charOf ch ≠ 0) {fuel : ℕ} {text : CString}
    {block : List UInt8} (hfuel : text.strlen < fuel) (hstarts : text.bytes ++ [0] <+: block)
    (hroom : charOf ch ∈ text.bytes → text.strlen + 2 ≤ block.length) :
    ∃ block', removeLoop ch fuel block = .ok block' ∧ block'.length = block.length ∧
      (text.without (charOf ch)).bytes ++ [0] <+: block' := by
  induction fuel generalizing text block with
  | zero => exact absurd hfuel (Nat.not_lt_zero _)
  | succ fuel ih =>
      rw [removeLoop]
      by_cases hmem : charOf ch ∈ text.bytes
      · obtain ⟨pre, post, htext, hpost⟩ := exists_last_of_mem hmem
        have hnul := text.nul_notMem
        have hlen : text.strlen = (pre ++ charOf ch :: post).length := by
          rw [CString.strlen, htext]
        have hleft : 0 ∉ pre ++ post := by
          rw [htext, List.mem_append, List.mem_cons] at hnul
          rw [List.mem_append]
          tauto
        have hwithout : (text.without (charOf ch)).bytes =
            ((CString.mk (pre ++ post) hleft).without (charOf ch)).bytes := by
          simp only [CString.without, htext, List.filter_append, List.filter_cons]
          simp
        have hfits := hroom hmem
        rw [strrchr_eq hch hstarts htext hpost, ok_bind]
        rw [htext] at hnul hstarts
        rw [hlen] at hfits hfuel
        obtain ⟨moved, hstrlen, hmove, hsame, hmoved⟩ := memmove_onto hnul hstarts hfits
        rw [List.length_append, List.length_cons] at hfits hfuel
        have hless : (CString.mk (pre ++ post) hleft).strlen = pre.length + post.length :=
          List.length_append
        have hshorter : (CString.mk (pre ++ post) hleft).strlen < fuel := by
          rw [hless]
          omega
        obtain ⟨block', hrun, hlength, hend⟩ := ih hshorter hmoved fun _ => by
          rw [hless, hsame]
          omega
        refine ⟨block', ?_, hlength.trans hsame, hwithout ▸ hend⟩
        dsimp only
        rw [hstrlen, ok_bind, hmove, ok_bind, hrun]
      · have hwithout : (text.without (charOf ch)).bytes = text.bytes := by
          apply List.filter_eq_self.mpr
          intro b hb
          exact decide_eq_true fun heq => hmem (heq ▸ hb)
        rw [strrchr_of_notMem hch hstarts hmem, ok_bind]
        exact ⟨block, rfl, rfl, hwithout ▸ hstarts⟩

/-- A string that fills its block has no byte behind the terminator to be moved. -/
theorem removeLoop_outside {ch : ℤ} (hch : charOf ch ≠ 0) (fuel : ℕ) {text : CString}
    {block : List UInt8} (hstarts : text.bytes ++ [0] <+: block)
    (hmem : charOf ch ∈ text.bytes) (hfull : block.length < text.strlen + 2) :
    removeLoop ch (fuel + 1) block = .error .invalidAccess := by
  obtain ⟨pre, post, htext, hpost⟩ := exists_last_of_mem hmem
  have hnul : 0 ∉ charOf ch :: post := fun h =>
    text.nul_notMem (htext ▸ List.mem_append_right pre h)
  have hlen : text.strlen = pre.length + (post.length + 1) := by
    rw [CString.strlen, htext, List.length_append, List.length_cons]
  have hdrop : charOf ch :: post ++ [0] <+: block.drop pre.length := by
    obtain ⟨rest, rfl⟩ := hstarts
    refine ⟨rest, ?_⟩
    rw [htext, List.append_assoc, List.append_assoc, List.append_assoc, List.drop_left,
      List.cons_append]
  have hstrlen : strlenBlock (block.drop pre.length) = .ok (post.length + 1) :=
    @strlenBlock_eq ⟨charOf ch :: post, hnul⟩ _ hdrop
  have hload : Block.load? block (pre.length + 1) (post.length + 2) = none := by
    rw [Block.load?, if_neg]
    omega
  rw [removeLoop, strrchr_eq hch hstarts htext hpost, ok_bind]
  dsimp only
  rw [hstrlen, ok_bind, memmove, hload]
  rfl

/-! ## The operation -/

/-- `strip_char` comes back with the trimmed text without the character, and its length. -/
def RemovesWell (text : CString) (buf : StringT) (ch : ℤ) : Prop :=
  ∃ buf', buf.stripChar ch = .ok buf' ∧ Holds (text.trim.without (charOf ch)) buf'

/-- There is something to look at, and a byte behind what is to be moved. -/
structure Removable (text : CString) (buf : StringT) (ch : ℤ) : Prop where
  char : ∃ b ∈ text.bytes, isspace b = false
  room : charOf ch ∈ text.trim.bytes → text.trim.strlen + 2 ≤ buf.cap

namespace HasText

variable {text : CString} {buf : StringT} (h : HasText text buf) {ch : ℤ} (hch : charOf ch ≠ 0)

include h hch

theorem stripChar (hremovable : Removable text buf ch) : RemovesWell text buf ch := by
  obtain ⟨trimmed, hstrip, -, hsame, htrim⟩ := h.stripSpace hremovable.char
  have hlength := htrim.length_buffer
  have hstarts := htrim.text_starts.length_le
  rw [List.length_append, List.length_singleton] at hstarts
  have hfuel : text.trim.strlen < trimmed.buffer.length + 1 := Nat.lt_succ_of_le (by
    rw [CString.strlen]
    omega)
  obtain ⟨buffer, hloop, hkept, hend⟩ := removeLoop_spec hch hfuel htrim.text_starts
    (fun hmem => by rw [hlength, hsame]; exact hremovable.room hmem)
  have hlen := strlenBlock_eq hend
  refine ⟨⟨buffer, (text.trim.without (charOf ch)).strlen, trimmed.cap⟩, ?_, ?_⟩
  · rw [StringT.stripChar, hstrip, ok_bind, hloop, ok_bind, hlen, ok_bind]
  · have hle := hend.length_le
    rw [List.length_append, List.length_singleton, hkept, hlength] at hle
    exact ⟨hkept.trans hlength, hend, rfl, hle⟩

theorem removable_of_stripChar {buf' : StringT} (hrun : buf.stripChar ch = .ok buf') :
    Removable text buf ch := by
  rw [StringT.stripChar] at hrun
  obtain ⟨trimmed, hstrip, hrun⟩ := bind_eq_ok.mp hrun
  obtain ⟨buffer, hloop, -⟩ := bind_eq_ok.mp hrun
  have hchar := h.exists_of_stripSpace hstrip
  obtain ⟨trimmed', hstrip', -, hsame, htrim⟩ := h.stripSpace hchar
  obtain rfl : trimmed' = trimmed := Except.ok.inj (hstrip'.symm.trans hstrip)
  refine ⟨hchar, fun hmem => ?_⟩
  by_contra hfull
  have hless : trimmed'.buffer.length < text.trim.strlen + 2 := by
    rw [htrim.length_buffer, hsame]
    exact Nat.lt_of_not_le hfull
  rw [removeLoop_outside hch _ htrim.text_starts hmem hless] at hloop
  cases hloop

end HasText

/-- The character is taken out everywhere exactly when trimming stays in the
block and the string does not fill it. -/
theorem removes_well_iff {text : CString} {buf : StringT} (h : HasText text buf) {ch : ℤ}
    (hch : charOf ch ≠ 0) : RemovesWell text buf ch ↔ Removable text buf ch := by
  constructor
  · rintro ⟨buf', hrun, -⟩
    exact h.removable_of_stripChar hch hrun
  · exact h.stripChar hch

/-- The text `a,b` in eight bytes. -/
theorem removes_well_commas_iff :
    RemovesWell ⟨[97, 44, 98], by decide⟩ ⟨[97, 44, 98, 0, 0, 0, 0, 0], 3, 8⟩ 44 ↔
      Removable ⟨[97, 44, 98], by decide⟩ ⟨[97, 44, 98, 0, 0, 0, 0, 0], 3, 8⟩ 44 :=
  removes_well_iff ⟨rfl, ⟨[0, 0, 0, 0], rfl⟩, by norm_num⟩ (by decide)

/-- The text `a,b,c,d` and its terminator are all of their eight bytes. -/
theorem not_removes_well_full :
    ¬ ∀ (text : CString) (buf : StringT) (ch : ℤ), HasText text buf → charOf ch ≠ 0 →
      RemovesWell text buf ch := by
  intro hall
  have hfull : HasText ⟨[97, 44, 98, 44, 99, 44, 100], by decide⟩
      ⟨[97, 44, 98, 44, 99, 44, 100, 0], 7, 8⟩ := ⟨rfl, ⟨[], rfl⟩, by norm_num⟩
  obtain ⟨buf', hrun, -⟩ := hall _ _ 44 hfull (by decide)
  have hroom := (hfull.removable_of_stripChar (by decide) hrun).room (by decide)
  exact absurd hroom (by decide)

end StringT

end SimpleVm
