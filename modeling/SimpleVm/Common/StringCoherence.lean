import SimpleVm.Common.StringTrim
import SimpleVm.Lib.Runs

/-!
# The length of a string buffer

The appending operations count in `len`, the others go by the terminator. The
trimming operations take characters away and leave `len` as it was, and a NUL
that is appended counts but is not seen.
-/

namespace SimpleVm

/-- `toupper` and `tolower` in the C locale. -/
def toupper (b : UInt8) : UInt8 := if 97 ≤ b ∧ b ≤ 122 then b - 32 else b

def tolower (b : UInt8) : UInt8 := if 65 ≤ b ∧ b ≤ 90 then b + 32 else b

theorem toupper_ne_zero {b : UInt8} (h : b ≠ 0) : toupper b ≠ 0 := by
  rw [toupper]
  split
  · grind
  · exact h

theorem tolower_ne_zero {b : UInt8} (h : b ≠ 0) : tolower b ≠ 0 := by
  rw [tolower]
  split
  · grind
  · exact h

namespace CString

def mapBytes (f : UInt8 → UInt8) (hf : ∀ b, b ≠ 0 → f b ≠ 0) (s : CString) : CString where
  bytes := s.bytes.map f
  nul_notMem := by
    intro hmem
    obtain ⟨b, hb, hzero⟩ := List.mem_map.mp hmem
    exact hf b (fun hnul => s.nul_notMem (hnul ▸ hb)) hzero

theorem read_starts {block : List UInt8} (h : 0 ∈ block) : (read block).bytes ++ [0] <+: block := by
  obtain ⟨pre, rest, rfl, hpre⟩ := List.eq_append_cons_of_mem h
  rw [read_append_nul ⟨pre, hpre⟩ rest]
  exact ⟨rest, by rw [List.append_assoc, List.singleton_append]⟩

theorem strlen_trim_le (s : CString) : s.trim.strlen ≤ s.strlen := by
  obtain ⟨front, back, hbytes, -, -⟩ := s.exists_eq_trim
  rw [strlen, strlen, hbytes, List.length_append, List.length_append]
  omega

/-- Nothing was taken off when the length is the same. -/
theorem trim_eq_of_strlen_eq {s : CString} (h : s.trim.strlen = s.strlen) : s.trim = s := by
  obtain ⟨front, back, hbytes, -, -⟩ := s.exists_eq_trim
  rw [strlen, strlen, hbytes, List.length_append, List.length_append] at h
  obtain rfl : front = [] := List.length_eq_zero_iff.mp (by omega)
  obtain rfl : back = [] := List.length_eq_zero_iff.mp (by omega)
  apply CString.ext
  rw [hbytes, List.nil_append, List.append_nil]

theorem strlen_inner (s : CString) : s.inner.strlen = s.strlen - 1 - 1 := by
  rw [strlen, strlen, inner, List.length_dropLast, List.length_tail]

end CString

namespace StringT

/-! ## The source -/

/-- The last `ch` of the string; its terminator is part of it. -/
def strrchr (block : List UInt8) (ch : ℤ) : Except Halt (Option ℕ) := do
  let n ← strlenBlock block
  .ok (((block.take (n + 1)).reverse.findIdx? (· = charOf ch)).map (n - ·))

/-- The loop of `strip_char`; `fuel` bounds its rounds. -/
def removeLoop (ch : ℤ) : ℕ → List UInt8 → Except Halt (List UInt8)
  | 0, _ => .error .diverges
  | fuel + 1, block => do
      let temp ← strrchr block ch
      match temp with
      | some temp => do
          let n ← strlenBlock (block.drop temp)
          let block ← memmove block temp (temp + 1) (n + 1)
          removeLoop ch fuel block
      | none => .ok block

def stripChar (buf : StringT) (ch : ℤ) : Except Halt StringT := do
  let buf ← stripSpace buf
  let buffer ← removeLoop ch (buf.buffer.length + 1) buf.buffer
  let len ← strlenBlock buffer
  .ok { buf with buffer := buffer, len := len }

/-- The loop of `upcase` and `downcase`. -/
def caseLoop (f : UInt8 → UInt8) : List UInt8 → Except Halt (List UInt8)
  | [] => .error .invalidAccess
  | b :: block =>
      if b ≠ 0 then do
        let block ← caseLoop f block
        .ok (f b :: block)
      else .ok (b :: block)

def upcase (buf : StringT) : Except Halt StringT := do
  let buffer ← caseLoop toupper buf.buffer
  .ok { buf with buffer := buffer }

def downcase (buf : StringT) : Except Halt StringT := do
  let buffer ← caseLoop tolower buf.buffer
  .ok { buf with buffer := buffer }

inductive Edit where
  | append (str : CString)
  | appendStr (source : StringT) (hsource : 0 ∈ source.buffer)
  | appendChar (ch : ℤ)
  | clear
  | stripSpace
  | stripChar (ch : ℤ)
  | stripEnds
  | upcase
  | downcase

def edit (fresh : ℕ → UInt8) (buf : StringT) : Edit → Except Halt StringT
  | .append str => buf.appendString fresh str
  | .appendStr source _ => buf.appendStringStr fresh source
  | .appendChar ch => buf.appendStringChar fresh ch
  | .clear => buf.clearString
  | .stripSpace => buf.stripSpace
  | .stripChar ch => buf.stripChar ch
  | .stripEnds => buf.stripEnds
  | .upcase => buf.upcase
  | .downcase => buf.downcase

def edited (fresh : ℕ → UInt8) (init : Option CString) (edits : List Edit) :
    Except Halt StringT := do
  let buf ← createString fresh init
  edits.foldlM (edit fresh) buf

/-! ## What is to come of it -/

/-- The length is that of the string that is seen, and what is appended next is
seen behind it. -/
structure Coherent (fresh : ℕ → UInt8) (buf : StringT) : Prop where
  len_eq : strlenBlock buf.buffer = .ok buf.len
  extends_string : ∀ str buf', buf.appendString fresh str = .ok buf' →
    buf'.rawString = buf.rawString.append str
  extends_char : ∀ ch (hch : charOf ch ≠ 0) buf', buf.appendStringChar fresh ch = .ok buf' →
    buf'.rawString = buf.rawString.push (charOf ch) hch

def StaysCoherent (fresh : ℕ → UInt8) (init : Option CString) (edits : List Edit) : Prop :=
  ∀ pre, pre <+: edits → ∀ buf, edited fresh init pre = .ok buf → Coherent fresh buf

/-- The call leaves `len` as it has to be. -/
def Keeps (buf : StringT) : Edit → Prop
  | .appendChar ch => charOf ch ≠ 0
  | .stripSpace => buf.rawString.trim = buf.rawString
  | .stripEnds => False
  | _ => True

def StepsKeep (fresh : ℕ → UInt8) (init : Option CString) (edits : List Edit) : Prop :=
  ∀ pre e, pre ++ [e] <+: edits → ∀ buf, edited fresh init pre = .ok buf →
    ∀ buf', buf.edit fresh e = .ok buf' → buf.Keeps e

/-! ## Upper and lower case -/

theorem caseLoop_eq (f : UInt8 → UInt8) {bytes : List UInt8} (hnul : 0 ∉ bytes)
    (rest : List UInt8) :
    caseLoop f (bytes ++ 0 :: rest) = .ok (bytes.map f ++ 0 :: rest) := by
  induction bytes with
  | nil => rw [List.nil_append, caseLoop, if_neg (not_not_intro rfl), List.map_nil, List.nil_append]
  | cons b bytes ih =>
      have hb : b ≠ 0 := fun hzero => hnul (hzero ▸ List.mem_cons_self)
      rw [List.cons_append, caseLoop, if_pos hb, ih fun hmem => hnul (List.mem_cons_of_mem b hmem)]
      rfl

theorem Holds.caseLoop {text : CString} {buf : StringT} (h : Holds text buf) {f : UInt8 → UInt8}
    (hf : ∀ b, b ≠ 0 → f b ≠ 0) :
    ∃ buffer, StringT.caseLoop f buf.buffer = .ok buffer ∧
      Holds (text.mapBytes f hf) ⟨buffer, buf.len, buf.cap⟩ := by
  obtain ⟨rest, hrest⟩ := h.text_starts
  have hblock : buf.buffer = text.bytes ++ 0 :: rest := by
    rw [← hrest, List.append_assoc, List.singleton_append]
  have hsame := h.length_buffer
  rw [hblock, List.length_append] at hsame
  have hlength : (text.mapBytes f hf).bytes.length = text.bytes.length := List.length_map f
  refine ⟨(text.mapBytes f hf).bytes ++ 0 :: rest, ?_, ?_, ⟨rest, ?_⟩, ?_, h.len_lt⟩
  · rw [hblock]
    exact caseLoop_eq f text.nul_notMem rest
  · rw [List.length_append, hlength, hsame]
  · rw [List.append_assoc, List.singleton_append]
  · rw [CString.strlen, hlength]
    exact h.len_eq

/-! ## Taking out a character -/

theorem memmove_inside {block block' : List UInt8} {dest src n : ℕ}
    (h : memmove block dest src n = .ok block') : block'.length = block.length := by
  rw [memmove] at h
  split at h
  · exact (writeBlock_inside h).2
  · cases h

theorem length_removeLoop {ch : ℤ} {fuel : ℕ} {block block' : List UInt8}
    (h : removeLoop ch fuel block = .ok block') : block'.length = block.length := by
  induction fuel generalizing block with
  | zero => cases h
  | succ fuel ih =>
      rw [removeLoop] at h
      obtain ⟨temp, -, h⟩ := bind_eq_ok.mp h
      split at h
      · obtain ⟨n, -, h⟩ := bind_eq_ok.mp h
        obtain ⟨moved, hmove, h⟩ := bind_eq_ok.mp h
        exact (ih h).trans (memmove_inside hmove)
      · obtain rfl := Except.ok.inj h
        rfl

/-! ## One call -/

theorem holds_read {block : List UInt8} {len cap : ℕ} (hlength : block.length = cap)
    (hlen : strlenBlock block = .ok len) : Holds (CString.read block) ⟨block, len, cap⟩ := by
  rw [strlenBlock] at hlen
  split at hlen
  · next hmem =>
      obtain rfl := Except.ok.inj hlen
      have hstarts := CString.read_starts hmem
      have hle := hstarts.length_le
      rw [List.length_append, List.length_singleton, hlength] at hle
      exact ⟨hlength, hstarts, rfl, hle⟩
  · cases hlen

/-- The buffer holds the string that is seen, and could be grown. -/
def Held (buf : StringT) : Prop := ∃ text, Holds text buf ∧ CapPow buf

theorem CapPow.lt {buf : StringT} (h : CapPow buf) : buf.cap < 2 ^ 31 := by
  obtain ⟨e, he, hpow⟩ := h
  rw [hpow]
  exact Nat.pow_lt_pow_right Nat.one_lt_two (by omega)

theorem Holds.hasText {text : CString} {buf : StringT} (h : Holds text buf) (hcap : CapPow buf) :
    HasText text buf := ⟨h.length_buffer, h.text_starts, hcap.lt⟩

namespace Held

variable {fresh : ℕ → UInt8} {buf buf' : StringT}

theorem edit (h : Held buf) {e : Edit} (hrun : buf.edit fresh e = .ok buf') (hkeeps : buf.Keeps e) :
    Held buf' := by
  obtain ⟨text, h, hcap⟩ := h
  cases e with
  | append str =>
      obtain ⟨_, hrun', hcap', -, h'⟩ := h.appendString hcap fresh (h.fits_append hcap hrun)
      obtain rfl := Except.ok.inj (hrun'.symm.trans hrun)
      exact ⟨_, h', hcap'⟩
  | appendStr source hsource =>
      obtain ⟨_, hrun', hcap', -, h'⟩ := h.appendString hcap fresh (h.fits_append hcap hrun)
      obtain rfl := Except.ok.inj (hrun'.symm.trans hrun)
      exact ⟨_, h', hcap'⟩
  | appendChar ch =>
      obtain ⟨_, hrun', hsame, h'⟩ := h.appendStringChar fresh hkeeps (h.fits_char hrun)
      obtain rfl := Except.ok.inj (hrun'.symm.trans hrun)
      exact ⟨_, h', by rwa [CapPow, hsame]⟩
  | clear =>
      obtain ⟨_, hrun', hsame, h'⟩ := h.clearString
      obtain rfl := Except.ok.inj (hrun'.symm.trans hrun)
      exact ⟨_, h', by rwa [CapPow, hsame]⟩
  | stripSpace =>
      have htext := h.hasText hcap
      obtain ⟨_, hrun', hlen, hsame, h'⟩ := htext.stripSpace (htext.exists_of_stripSpace hrun)
      obtain rfl := Except.ok.inj (hrun'.symm.trans hrun)
      rw [Keeps, h.rawString_eq] at hkeeps
      rw [hkeeps] at h'
      refine ⟨text, ⟨h'.length_buffer, h'.text_starts, hlen.trans h.len_eq, ?_⟩, ?_⟩
      · rw [hlen, hsame]
        exact h.len_lt
      · rwa [CapPow, hsame]
  | stripChar ch =>
      have htext := h.hasText hcap
      rw [StringT.edit, StringT.stripChar] at hrun
      obtain ⟨trimmed, hstrip, hrun⟩ := bind_eq_ok.mp hrun
      obtain ⟨buffer, hloop, hrun⟩ := bind_eq_ok.mp hrun
      obtain ⟨len, hlen, hrun⟩ := bind_eq_ok.mp hrun
      obtain rfl := Except.ok.inj hrun
      obtain ⟨_, hstrip', -, hsame, htrim⟩ := htext.stripSpace (htext.exists_of_stripSpace hstrip)
      obtain rfl := Except.ok.inj (hstrip'.symm.trans hstrip)
      have hlength := (length_removeLoop hloop).trans htrim.length_buffer
      exact ⟨_, holds_read hlength hlen, by rwa [CapPow, hsame]⟩
  | stripEnds => exact hkeeps.elim
  | upcase =>
      obtain ⟨buffer, hloop, h'⟩ := h.caseLoop fun b => toupper_ne_zero
      rw [StringT.edit, StringT.upcase, hloop, ok_bind] at hrun
      obtain rfl := Except.ok.inj hrun
      exact ⟨_, h', hcap⟩
  | downcase =>
      obtain ⟨buffer, hloop, h'⟩ := h.caseLoop fun b => tolower_ne_zero
      rw [StringT.edit, StringT.downcase, hloop, ok_bind] at hrun
      obtain rfl := Except.ok.inj hrun
      exact ⟨_, h', hcap⟩

/-- A call that leaves the right length behind is one that keeps it. -/
theorem keeps (h : Held buf) {e : Edit} (hrun : buf.edit fresh e = .ok buf')
    (hlen : strlenBlock buf'.buffer = .ok buf'.len) : buf.Keeps e := by
  obtain ⟨text, h, hcap⟩ := h
  have htext := h.hasText hcap
  cases e with
  | appendChar ch =>
      intro hzero
      have hfit := h.fits_char hrun
      obtain ⟨block, hrun', hlength, hstarts⟩ := h.appendStringChar_block fresh ch hfit
      obtain rfl := Except.ok.inj (hrun'.symm.trans hrun)
      rw [hzero] at hstarts
      have hseen := strlenBlock_eq ((List.prefix_append _ _).trans hstarts)
      have hsame := Except.ok.inj (hseen.symm.trans hlen)
      rw [← h.len_eq] at hsame
      exact absurd hsame (Nat.ne_of_lt (Nat.lt_succ_self _))
  | stripSpace =>
      obtain ⟨_, hrun', hkept, -, h'⟩ := htext.stripSpace (htext.exists_of_stripSpace hrun)
      obtain rfl := Except.ok.inj (hrun'.symm.trans hrun)
      have hseen := Except.ok.inj ((strlenBlock_eq h'.text_starts).symm.trans hlen)
      rw [Keeps, h.rawString_eq]
      exact CString.trim_eq_of_strlen_eq (hseen.trans (hkept.trans h.len_eq))
  | stripEnds =>
      obtain ⟨trimmed, hstrip, -⟩ := bind_eq_ok.mp hrun
      have hchar := htext.exists_of_stripSpace hstrip
      obtain ⟨_, hrun', hkept, -, h'⟩ := htext.stripEnds hchar
      obtain rfl := Except.ok.inj (hrun'.symm.trans hrun)
      have hseen := Except.ok.inj ((strlenBlock_eq h'.text_starts).symm.trans hlen)
      rw [hkept, h.len_eq, CString.strlen_inner] at hseen
      obtain ⟨b, core, hcore, -⟩ := CString.exists_trim_cons (CString.trimEnd_ne_nil hchar)
      have hpos : text.trim.strlen = core.length + 1 := by
        rw [CString.strlen, hcore, List.length_cons]
      have hle := text.strlen_trim_le
      omega
  | _ => trivial

theorem coherent (h : Held buf) : Coherent fresh buf where
  len_eq := by
    obtain ⟨text, h, -⟩ := h
    rw [h.len_eq]
    exact strlenBlock_eq h.text_starts
  extends_string := by
    intro str buf' hrun
    obtain ⟨text, h, hcap⟩ := h
    obtain ⟨_, hrun', -, -, h'⟩ := h.appendString hcap fresh (h.fits_append hcap hrun)
    obtain rfl := Except.ok.inj (hrun'.symm.trans hrun)
    rw [h'.rawString_eq, h.rawString_eq]
  extends_char := by
    intro ch hch buf' hrun
    obtain ⟨text, h, -⟩ := h
    obtain ⟨_, hrun', -, h'⟩ := h.appendStringChar fresh hch (h.fits_char hrun)
    obtain rfl := Except.ok.inj (hrun'.symm.trans hrun)
    rw [h'.rawString_eq]
    simp only [h.rawString_eq]

end Held

/-! ## Whole runs -/

section Runs

variable {fresh : ℕ → UInt8} {init : Option CString} {buf : StringT}

theorem edited_nil (fresh : ℕ → UInt8) (init : Option CString) :
    edited fresh init [] = createString fresh init := by
  simp only [edited, List.foldlM_nil, bind_pure]

theorem edited_concat (fresh : ℕ → UInt8) (init : Option CString) (edits : List Edit) (e : Edit) :
    edited fresh init (edits ++ [e]) = edited fresh init edits >>= fun buf => buf.edit fresh e := by
  simp only [edited, List.foldlM_append, List.foldlM_cons, List.foldlM_nil, bind_pure, bind_assoc]

theorem held_created (hrun : createString fresh init = .ok buf) : Held buf := by
  obtain ⟨buf', hrun', hcap, h⟩ := createString_spec fresh (createString_fits hrun)
  obtain rfl := Except.ok.inj (hrun'.symm.trans hrun)
  exact ⟨_, h, hcap⟩

theorem isRun_edited (fresh : ℕ → UInt8) (init : Option CString) :
    IsRun (fun edits buf => edited fresh init edits = .ok buf)
      fun buf e buf' => buf.edit fresh e = .ok buf' where
  concat := by
    intro edits e buf'
    rw [edited_concat]
    exact bind_eq_ok

/-- The length is right after every call of a run exactly when every call that
comes back keeps it. -/
theorem stays_coherent_iff (fresh : ℕ → UInt8) (init : Option CString) (edits : List Edit) :
    StaysCoherent fresh init edits ↔ StepsKeep fresh init edits := by
  refine (isRun_edited fresh init).forall_good_iff (I := fun _ buf => Held buf) ?_ ?_ ?_ ?_
  · intro buf hrun
    rw [edited_nil] at hrun
    exact held_created hrun
  · intro pre buf hheld
    exact hheld.coherent
  · intro pre e buf buf' hheld hkeeps hstep
    exact hheld.edit hstep (hkeeps buf' hstep)
  · intro pre e buf hheld hgood buf' hstep
    exact hheld.keeps hstep (hgood buf' hstep).len_eq

/-- `strip_space` on `" a"` leaves the length at two. -/
theorem not_stays_coherent_trimmed :
    ¬ ∀ (init : Option CString) (edits : List Edit), StaysCoherent (fun _ => 0) init edits := by
  intro hall
  have hfit : ((some (CString.mk [32, 97] (by decide))).getD CString.empty).strlen + 1 ≤
      2 ^ 30 := by decide
  obtain ⟨buf, hcreate, hcap, h⟩ := createString_spec (fun _ => 0) hfit
  have hchar : ∃ b ∈ [(32 : UInt8), 97], isspace b = false := ⟨97, by decide, rfl⟩
  obtain ⟨buf', hstrip, hlen, -, h'⟩ := (h.hasText hcap).stripSpace hchar
  have hrun : edited (fun _ => 0) (some ⟨[32, 97], by decide⟩) [.stripSpace] = .ok buf' := by
    rw [show [Edit.stripSpace] = [] ++ [Edit.stripSpace] from rfl, edited_concat, edited_nil,
      hcreate, ok_bind]
    exact hstrip
  have hseen := (hall _ _ _ List.prefix_rfl buf' hrun).len_eq
  rw [strlenBlock_eq h'.text_starts, hlen, h.len_eq] at hseen
  exact absurd (Except.ok.inj hseen) (by decide)

end Runs

end StringT

end SimpleVm
