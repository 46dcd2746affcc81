import Mathlib.Algebra.Order.Ring.Int
import Mathlib.Data.Nat.Log
import Mathlib.Tactic.NormNum
import SimpleVm.Common.StringBuffer
import SimpleVm.Lib.Runs

/-!
# The append law of the string buffer

`append_string` makes room for the terminator and `append_string_char` does
not: with one byte left it writes the terminator behind the block. Away from
that boundary every mix of the operations leaves exactly the appended text.
-/

namespace SimpleVm.StringT

/-- The buffer holds `text`, terminated, inside its block. -/
structure Holds (text : CString) (buf : StringT) : Prop where
  length_buffer : buf.buffer.length = buf.cap
  text_starts : text.bytes ++ [0] <+: buf.buffer
  len_eq : buf.len = text.strlen
  len_lt : buf.len + 1 ≤ buf.cap

def CapPow (buf : StringT) : Prop := ∃ e ≤ 30, buf.cap = 2 ^ e

/-- The values the capacity can take while it is shifted. -/
def ShiftedCap (c : ℤ) : Prop := (∃ e ≤ 30, c = 2 ^ e) ∨ c = -2 ^ 31 ∨ c = 0

theorem toInt_two_pow {e : ℕ} (he : e < 30) : toInt (2 * 2 ^ e) = 2 ^ (e + 1) := by
  have hle : (2 : ℤ) ^ (e + 1) ≤ 2 ^ 30 := pow_le_pow_right₀ (by norm_num) he
  have hpos : (0 : ℤ) < 2 ^ (e + 1) := by positivity
  rw [← pow_succ']
  exact toInt_of_lt (by omega) (by omega)

theorem ShiftedCap.double {c : ℤ} (h : ShiftedCap c) : ShiftedCap (toInt (2 * c)) := by
  rcases h with ⟨e, he, rfl⟩ | rfl | rfl
  · rcases Nat.lt_or_eq_of_le he with hlt | rfl
    · exact .inl ⟨e + 1, hlt, toInt_two_pow hlt⟩
    · exact .inr (.inl (by decide))
  · exact .inr (.inr (by decide))
  · exact .inr (.inr (by decide))

theorem ShiftedCap.le {c : ℤ} (h : ShiftedCap c) : c ≤ 2 ^ 30 := by
  rcases h with ⟨e, he, rfl⟩ | rfl | rfl
  · exact pow_le_pow_right₀ (by norm_num) he
  · norm_num
  · norm_num

/-- The capacity once `need` bytes fit. -/
def capFor (cap need : ℕ) : ℕ := if cap < need then 2 ^ Nat.clog 2 need else cap

theorem le_capFor (cap need : ℕ) : cap ≤ capFor cap need ∧ need ≤ capFor cap need := by
  have hclog : need ≤ 2 ^ Nat.clog 2 need := Nat.le_pow_clog Nat.one_lt_two need
  rw [capFor]
  split
  · next hgrow => exact ⟨(Nat.le_of_lt hgrow).trans hclog, hclog⟩
  · next hroom => exact ⟨Nat.le_refl cap, Nat.not_lt.mp hroom⟩

theorem doubleCap_of_le {need e : ℕ} (hgrow : 2 ^ e < need) (hneed : need ≤ 2 ^ 30) :
    Nat.clog 2 need ≤ 30 ∧ doubleCap need (2 ^ e) = .ok (2 ^ Nat.clog 2 need) := by
  have hlog : Nat.clog 2 need ≤ 30 := Nat.clog_le_of_le_pow hneed
  have he : e ≤ 30 := Nat.le_of_lt ((Nat.pow_lt_pow_iff_right Nat.one_lt_two).mp
    (hgrow.trans_le hneed))
  obtain ⟨e', -, -, hle, hmin, hloop⟩ := RepeatUntil.exists_double
    (f := fun c => toInt (2 * c)) 33 (fun k hk => toInt_two_pow hk) he
    (show (need : ℤ) ≤ 2 ^ 30 by exact_mod_cast hneed) (by omega)
  have hexp : e' = Nat.clog 2 need := by
    apply Nat.le_antisymm
    · by_contra hlt
      have helog : e ≤ Nat.clog 2 need := Nat.le_of_lt ((Nat.pow_lt_pow_iff_right Nat.one_lt_two).mp
        (hgrow.trans_le (Nat.le_pow_clog Nat.one_lt_two need)))
      have hshort : (2 : ℤ) ^ Nat.clog 2 need < need := hmin _ helog (Nat.lt_of_not_le hlt)
      have hlong := Nat.le_pow_clog Nat.one_lt_two need
      exact absurd hlong (Nat.not_le.mpr (by exact_mod_cast hshort))
    · exact Nat.clog_le_of_le_pow (by exact_mod_cast hle)
  refine ⟨hlog, ?_⟩
  rw [doubleCap]
  push_cast
  rw [hloop, hexp]
  have hcast : ((2 : ℤ) ^ Nat.clog 2 need).toNat = 2 ^ Nat.clog 2 need := by
    rw [show (2 : ℤ) ^ Nat.clog 2 need = ((2 ^ Nat.clog 2 need : ℕ) : ℤ) by push_cast; rfl,
      Int.toNat_natCast]
  simp only [hcast]

theorem doubleCap_le {need : ℤ} {e cap : ℕ} (he : e ≤ 30)
    (h : doubleCap need (2 ^ e) = .ok cap) : cap ≤ 2 ^ 30 := by
  rw [doubleCap] at h
  split at h
  · rename_i c hc
    have hstart : ShiftedCap ((2 ^ e : ℕ) : ℤ) := .inl ⟨e, he, by push_cast; rfl⟩
    have hle := (RepeatUntil.invariant (P := ShiftedCap) (fun _ => ShiftedCap.double)
      hstart hc).le
    obtain rfl : c.toNat = cap := by simpa using h
    omega
  · cases h

theorem le_of_doubleCap {need : ℤ} {cap cap' : ℕ}
    (h : doubleCap need cap = .ok cap') : need ≤ cap' := by
  rw [doubleCap] at h
  split at h
  · next c hc =>
      have hle : need ≤ c := by simpa using RepeatUntil.enough_of_eq_some hc
      obtain rfl := Except.ok.inj h
      omega
  · cases h

/-! ## The operations one by one -/

theorem strlenBlock_eq {text : CString} {block : List UInt8}
    (h : text.bytes ++ [0] <+: block) : strlenBlock block = .ok text.strlen := by
  obtain ⟨rest, rfl⟩ := h
  have hmem : 0 ∈ text.bytes ++ [0] ++ rest := by simp
  have hread : CString.read (text.bytes ++ [0] ++ rest) = text := by
    rw [List.append_assoc]
    exact CString.read_append_nul text rest
  rw [strlenBlock, if_pos hmem, hread]

theorem writeBlock_text {block pre : List UInt8} (more : List UInt8) (h : pre <+: block)
    (hroom : pre.length + more.length ≤ block.length) :
    ∃ block', writeBlock block pre.length more = .ok block' ∧
      block'.length = block.length ∧ pre ++ more <+: block' := by
  obtain ⟨block', hstore, hlen, hstarts⟩ := Block.exists_store_behind more h hroom
  exact ⟨block', by rw [writeBlock, hstore], hlen, hstarts⟩

theorem writeBlock_outside {block cells : List UInt8} {i : ℕ}
    (h : block.length < i + cells.length) :
    writeBlock block i cells = .error .invalidAccess := by
  rw [writeBlock, Block.store?, if_neg (by omega)]

theorem writeBlock_inside {block block' cells : List UInt8} {i : ℕ}
    (h : writeBlock block i cells = .ok block') :
    i + cells.length ≤ block.length ∧ block'.length = block.length := by
  rw [writeBlock] at h
  split at h
  · next stored hstore =>
      obtain rfl := Except.ok.inj h
      rw [Block.store?] at hstore
      split at hstore
      · next hroom =>
          obtain rfl := Option.some.inj hstore
          exact ⟨hroom, Block.length_overwrite hroom⟩
      · cases hstore
  · cases h

theorem writeBlock_cut (pre : List UInt8) (b : UInt8) (rest : List UInt8) :
    writeBlock (pre ++ b :: rest) pre.length [0] = .ok (pre ++ 0 :: rest) := by
  have hinside : pre.length + [(0 : UInt8)].length ≤ (pre ++ b :: rest).length := by
    simp only [List.length_append, List.length_cons, List.length_nil]
    omega
  have hsame : [b].length = [(0 : UInt8)].length := rfl
  have hover := Block.overwrite_append pre rest hsame
  rw [List.append_assoc, List.append_assoc] at hover
  rw [writeBlock, Block.store?_eq hinside]
  exact congrArg Except.ok hover

theorem strcat_text {text : CString} {block : List UInt8} (h : text.bytes ++ [0] <+: block)
    (str : CString) (hroom : text.strlen + str.strlen + 1 ≤ block.length) :
    ∃ block', strcat block str = .ok block' ∧ block'.length = block.length ∧
      (text.append str).bytes ++ [0] <+: block' := by
  have hlen : text.bytes.length + (str.bytes ++ [0]).length ≤ block.length := by
    rw [List.length_append, List.length_singleton]
    simpa [CString.strlen, Nat.add_assoc] using hroom
  have hpre : text.bytes <+: block := (List.prefix_append _ _).trans h
  obtain ⟨block', hwrite, hlength, hstarts⟩ := writeBlock_text _ hpre hlen
  refine ⟨block', ?_, hlength, ?_⟩
  · rw [strcat, strlenBlock_eq h, ok_bind]
    exact hwrite
  · rwa [CString.append, List.append_assoc]

namespace Holds

variable {text : CString} {buf : StringT} (h : Holds text buf)

include h

theorem pre : text.bytes <+: buf.buffer := (List.prefix_append _ _).trans h.text_starts

theorem rawString_eq : buf.rawString = text := by
  obtain ⟨rest, hrest⟩ := h.text_starts
  rw [rawString, ← hrest, List.append_assoc]
  exact CString.read_append_nul text rest

theorem strcat_spec (str : CString) (hroom : text.strlen + str.strlen + 1 ≤ buf.cap) :
    ∃ buffer, strcat buf.buffer str = .ok buffer ∧
      Holds (text.append str) ⟨buffer, (text.append str).strlen, buf.cap⟩ := by
  obtain ⟨buffer, hcat, hlength, hstarts⟩ := strcat_text h.text_starts str
    (h.length_buffer ▸ hroom)
  refine ⟨buffer, hcat, hlength.trans h.length_buffer, hstarts, rfl, ?_⟩
  simpa [CString.append, CString.strlen] using hroom

theorem appendString (hcap : CapPow buf) (fresh : ℕ → UInt8) {str : CString}
    (hfit : text.strlen + str.strlen + 1 ≤ 2 ^ 30) :
    ∃ buf', buf.appendString fresh str = .ok buf' ∧ CapPow buf' ∧
      buf'.cap = capFor buf.cap (text.strlen + str.strlen + 1) ∧
      Holds (text.append str) buf' := by
  obtain ⟨e, he, hpow⟩ := hcap
  have hstr : toInt str.strlen = str.strlen := toInt_of_lt (by omega) (by omega)
  have hneed : toInt (toInt str.strlen + buf.len + 1) =
      ((text.strlen + str.strlen + 1 : ℕ) : ℤ) := by
    rw [hstr, h.len_eq, toInt_of_lt (by omega) (by omega)]
    omega
  rw [StringT.appendString]
  simp only [hneed, makeRoom, Nat.cast_lt, capFor]
  by_cases hgrow : buf.cap < text.strlen + str.strlen + 1
  · obtain ⟨hlog, hdouble⟩ := doubleCap_of_le (hpow ▸ hgrow) hfit
    have hle := Nat.le_pow_clog Nat.one_lt_two (text.strlen + str.strlen + 1)
    generalize hexp : Nat.clog 2 (text.strlen + str.strlen + 1) = e' at hlog hdouble hle
    have hcapLe : buf.buffer.length ≤ 2 ^ e' := by
      rw [h.length_buffer]
      exact (Nat.le_of_lt hgrow).trans hle
    have hgrown : Holds text ⟨Block.grow fresh buf.buffer (2 ^ e'), buf.len, 2 ^ e'⟩ := by
      refine ⟨Block.length_grow _ _ _, Block.prefix_grow h.text_starts hcapLe, h.len_eq, ?_⟩
      have hlt := h.len_lt
      have hlength := h.length_buffer
      simp only
      omega
    obtain ⟨buffer, hcat, hheld⟩ := hgrown.strcat_spec str hle
    rw [if_pos hgrow, if_pos hgrow, hpow, hdouble]
    simp only [ok_bind, hcat, strlenBlock_eq hheld.text_starts]
    exact ⟨_, rfl, ⟨e', hlog, rfl⟩, rfl, hheld⟩
  · obtain ⟨buffer, hcat, hheld⟩ := h.strcat_spec str (by omega)
    rw [if_neg hgrow, if_neg hgrow]
    simp only [ok_bind, hcat, strlenBlock_eq hheld.text_starts]
    exact ⟨_, rfl, ⟨e, he, hpow⟩, rfl, hheld⟩

theorem makeRoom {fresh : ℕ → UInt8} {grown : StringT} {need : ℤ}
    (hrun : buf.makeRoom fresh need = .ok grown) : Holds text grown := by
  rw [StringT.makeRoom] at hrun
  split at hrun
  · next hgrow =>
      obtain ⟨cap, hdouble, hset⟩ := bind_eq_ok.mp hrun
      obtain rfl := Except.ok.inj hset
      have hneed := le_of_doubleCap hdouble
      have hlt := h.len_lt
      have hblock := h.length_buffer
      refine ⟨Block.length_grow _ _ _, Block.prefix_grow h.text_starts (by omega), h.len_eq, ?_⟩
      simp only
      omega
  · obtain rfl := Except.ok.inj hrun
    exact h

/-- Any character goes behind the text, a NUL too. -/
theorem appendStringChar_block (fresh : ℕ → UInt8) (ch : ℤ) (hfit : buf.len + 1 < buf.cap) :
    ∃ block, buf.appendStringChar fresh ch = .ok ⟨block, buf.len + 1, buf.cap⟩ ∧
      block.length = buf.cap ∧ text.bytes ++ [charOf ch] ++ [0] <+: block := by
  have hlen : text.bytes.length = buf.len := h.len_eq.symm
  have hblock := h.length_buffer
  obtain ⟨block₁, hwrite₁, hlength₁, hstarts₁⟩ := writeBlock_text [charOf ch] h.pre
    (by simp only [List.length_singleton]; omega)
  obtain ⟨block₂, hwrite₂, hlength₂, hstarts₂⟩ := writeBlock_text [0] hstarts₁
    (by simp only [List.length_append, List.length_singleton]; omega)
  rw [hlen] at hwrite₁
  rw [List.length_append, hlen, List.length_singleton] at hwrite₂
  rw [StringT.appendStringChar, makeRoomChar, if_neg (by omega)]
  simp only [ok_bind, hwrite₁, hwrite₂]
  exact ⟨block₂, rfl, by omega, hstarts₂⟩

theorem appendStringChar (fresh : ℕ → UInt8) {ch : ℤ} (hch : charOf ch ≠ 0)
    (hfit : buf.len + 1 < buf.cap) :
    ∃ buf', buf.appendStringChar fresh ch = .ok buf' ∧ buf'.cap = buf.cap ∧
      Holds (text.push (charOf ch) hch) buf' := by
  obtain ⟨block, hrun, hlength, hstarts⟩ := h.appendStringChar_block fresh ch hfit
  refine ⟨_, hrun, rfl, hlength, hstarts, ?_, hfit⟩
  simp [CString.push, CString.strlen, h.len_eq]

theorem appendStringChar_outside (fresh : ℕ → UInt8) (ch : ℤ) (hfull : ¬ buf.len + 1 < buf.cap) :
    buf.appendStringChar fresh ch = .error .invalidAccess := by
  have hlt := h.len_lt
  have hblock := h.length_buffer
  have hlen : text.bytes.length = buf.len := h.len_eq.symm
  obtain ⟨block₁, hwrite₁, hlength₁, -⟩ := writeBlock_text [charOf ch] h.pre
    (by simp only [List.length_singleton]; omega)
  rw [hlen] at hwrite₁
  have hout : writeBlock block₁ (buf.len + 1) [0] = .error .invalidAccess :=
    writeBlock_outside (by simp only [List.length_singleton]; omega)
  rw [StringT.appendStringChar, makeRoomChar, if_neg (by omega)]
  simp only [ok_bind, hwrite₁, hout]
  rfl

theorem clearString :
    ∃ buf', buf.clearString = .ok buf' ∧ buf'.cap = buf.cap ∧ Holds CString.empty buf' := by
  have hlt := h.len_lt
  have hblock := h.length_buffer
  obtain ⟨block, hwrite, hlength, hstarts⟩ := writeBlock_text [0]
    (show [] <+: buf.buffer from List.nil_prefix)
    (by simp only [List.length_nil, List.length_singleton]; omega)
  rw [StringT.clearString]
  simp only [List.length_nil] at hwrite
  simp only [hwrite, ok_bind]
  exact ⟨_, rfl, rfl, hlength.trans hblock, hstarts, rfl, by simp only; omega⟩

end Holds

/-- However long the string, a capacity past `2 ^ 30` is never reached. -/
theorem appendString_cap_le {fresh : ℕ → UInt8} {buf buf' : StringT} {str : CString}
    (hcap : CapPow buf) (h : buf.appendString fresh str = .ok buf') : buf'.cap ≤ 2 ^ 30 := by
  obtain ⟨e, he, hpow⟩ := hcap
  simp only [appendString, bind_eq_ok, Except.ok.injEq] at h
  obtain ⟨grown, hgrown, buffer, -, len, -, rfl⟩ := h
  rw [makeRoom] at hgrown
  split at hgrown
  · obtain ⟨cap, hcap, hset⟩ := bind_eq_ok.mp hgrown
    obtain rfl := Except.ok.inj hset
    rw [hpow] at hcap
    exact doubleCap_le he hcap
  · obtain rfl := Except.ok.inj hgrown
    simp only [hpow]
    exact Nat.pow_le_pow_right (by norm_num) he

/-! ## Whole runs -/

structure HeldString where
  str : StringT
  text : CString
  holds : Holds text str

inductive Op where
  | append (str : CString)
  | appendStr (source : HeldString)
  | appendChar (ch : ℤ) (hch : charOf ch ≠ 0)
  | clear

def perform (fresh : ℕ → UInt8) (buf : StringT) : Op → Except Halt StringT
  | .append str => buf.appendString fresh str
  | .appendStr source => buf.appendStringStr fresh source.str
  | .appendChar ch _ => buf.appendStringChar fresh ch
  | .clear => buf.clearString

def textStep (text : CString) : Op → CString
  | .append str => text.append str
  | .appendStr source => text.append source.text
  | .appendChar ch hch => text.push (charOf ch) hch
  | .clear => CString.empty

def after (fresh : ℕ → UInt8) (init : Option CString) (ops : List Op) : Except Halt StringT := do
  let buf ← createString fresh init
  ops.foldlM (perform fresh) buf

def textAfter (init : Option CString) (ops : List Op) : CString :=
  ops.foldl textStep (init.getD CString.empty)

/-- A string fits while the capacity can still be doubled; a single character
fits when a byte is left for the terminator behind it. -/
def Fits (buf : StringT) : Op → Prop
  | .append str => buf.len + str.strlen + 1 ≤ 2 ^ 30
  | .appendStr source => buf.len + source.text.strlen + 1 ≤ 2 ^ 30
  | .appendChar _ _ => buf.len + 1 < buf.cap
  | .clear => True

def Lawful (fresh : ℕ → UInt8) (init : Option CString) (ops : List Op) : Prop :=
  ∀ pre, pre <+: ops → ∃ buf, after fresh init pre = .ok buf ∧ Holds (textAfter init pre) buf

def StepsFit (fresh : ℕ → UInt8) (init : Option CString) (ops : List Op) : Prop :=
  (init.getD CString.empty).strlen + 1 ≤ 2 ^ 30 ∧
    ∀ pre op, pre ++ [op] <+: ops → ∀ buf, after fresh init pre = .ok buf → buf.Fits op

theorem appendStringStr_eq (fresh : ℕ → UInt8) (buf : StringT) (source : HeldString) :
    buf.appendStringStr fresh source.str = buf.appendString fresh source.text := by
  rw [appendStringStr, ← rawString, source.holds.rawString_eq]

theorem Holds.perform {text : CString} {buf : StringT} (h : Holds text buf) (hcap : CapPow buf)
    (fresh : ℕ → UInt8) {op : Op} (hfit : buf.Fits op) :
    ∃ buf', buf.perform fresh op = .ok buf' ∧ CapPow buf' ∧ Holds (textStep text op) buf' := by
  cases op with
  | append str =>
      rw [Fits, h.len_eq] at hfit
      obtain ⟨buf', hrun, hcap', -, h'⟩ := h.appendString hcap fresh hfit
      exact ⟨buf', hrun, hcap', h'⟩
  | appendStr source =>
      rw [Fits, h.len_eq] at hfit
      rw [StringT.perform, appendStringStr_eq]
      obtain ⟨buf', hrun, hcap', -, h'⟩ := h.appendString hcap fresh hfit
      exact ⟨buf', hrun, hcap', h'⟩
  | appendChar ch hch =>
      obtain ⟨buf', hrun, hsame, h'⟩ := h.appendStringChar fresh hch hfit
      exact ⟨buf', hrun, by rwa [CapPow, hsame], h'⟩
  | clear =>
      obtain ⟨buf', hrun, hsame, h'⟩ := h.clearString
      exact ⟨buf', hrun, by rwa [CapPow, hsame], h'⟩

/-- A string that does not fit ends the call. -/
theorem Holds.fits_append {text : CString} {buf buf' : StringT} (h : Holds text buf)
    (hcap : CapPow buf) {fresh : ℕ → UInt8} {str : CString}
    (hrun : buf.appendString fresh str = .ok buf') :
    text.strlen + str.strlen + 1 ≤ 2 ^ 30 := by
  have hle := appendString_cap_le hcap hrun
  simp only [StringT.appendString, bind_eq_ok, Except.ok.injEq] at hrun
  obtain ⟨grown, hgrown, buffer, hcat, len, -, rfl⟩ := hrun
  have hheld := h.makeRoom hgrown
  rw [strcat, strlenBlock_eq hheld.text_starts, ok_bind] at hcat
  have hroom := (writeBlock_inside hcat).1
  rw [List.length_append, List.length_singleton, hheld.length_buffer] at hroom
  exact Nat.le_trans hroom hle

/-- A character that takes the last byte ends the call. -/
theorem Holds.fits_char {text : CString} {buf buf' : StringT} (h : Holds text buf)
    {fresh : ℕ → UInt8} {ch : ℤ} (hrun : buf.appendStringChar fresh ch = .ok buf') :
    buf.len + 1 < buf.cap := by
  by_contra hfull
  rw [h.appendStringChar_outside fresh ch hfull] at hrun
  cases hrun

theorem Holds.fits {text : CString} {buf buf' : StringT} (h : Holds text buf)
    (hcap : CapPow buf) {fresh : ℕ → UInt8} {op : Op}
    (hrun : buf.perform fresh op = .ok buf') : buf.Fits op := by
  cases op with
  | append str =>
      rw [StringT.perform] at hrun
      rw [Fits, h.len_eq]
      exact h.fits_append hcap hrun
  | appendStr source =>
      rw [StringT.perform, appendStringStr_eq] at hrun
      rw [Fits, h.len_eq]
      exact h.fits_append hcap hrun
  | appendChar ch hch =>
      rw [StringT.perform] at hrun
      exact h.fits_char hrun
  | clear => trivial

theorem holds_empty : Holds CString.empty ⟨List.replicate 8 0, 0, 8⟩ where
  length_buffer := rfl
  text_starts := ⟨List.replicate 7 0, rfl⟩
  len_eq := rfl
  len_lt := by norm_num

theorem capPow_empty : CapPow ⟨List.replicate 8 0, 0, 8⟩ := ⟨3, by norm_num, rfl⟩

theorem createString_spec (fresh : ℕ → UInt8) {init : Option CString}
    (hfit : (init.getD CString.empty).strlen + 1 ≤ 2 ^ 30) :
    ∃ buf, createString fresh init = .ok buf ∧ CapPow buf ∧
      Holds (init.getD CString.empty) buf := by
  cases init with
  | none => exact ⟨_, rfl, capPow_empty, holds_empty⟩
  | some str =>
      have hlen : CString.empty.strlen + str.strlen + 1 ≤ 2 ^ 30 := by
        rw [show CString.empty.strlen = 0 from rfl, Nat.zero_add]
        exact hfit
      obtain ⟨buf, hrun, hcap, -, h⟩ := holds_empty.appendString capPow_empty fresh hlen
      exact ⟨buf, hrun, hcap, h⟩

theorem createString_fits {fresh : ℕ → UInt8} {init : Option CString} {buf : StringT}
    (hrun : createString fresh init = .ok buf) :
    (init.getD CString.empty).strlen + 1 ≤ 2 ^ 30 := by
  cases init with
  | none =>
      rw [show ((none : Option CString).getD CString.empty).strlen = 0 from rfl]
      norm_num
  | some str =>
      rw [createString] at hrun
      have hfit := holds_empty.fits_append capPow_empty hrun
      rwa [show CString.empty.strlen = 0 from rfl, Nat.zero_add] at hfit

theorem after_concat (fresh : ℕ → UInt8) (init : Option CString) (ops : List Op) (op : Op) :
    after fresh init (ops ++ [op]) = after fresh init ops >>= fun buf => buf.perform fresh op := by
  simp only [after, List.foldlM_append, List.foldlM_cons, List.foldlM_nil, bind_pure, bind_assoc]

theorem textAfter_concat (init : Option CString) (ops : List Op) (op : Op) :
    textAfter init (ops ++ [op]) = textStep (textAfter init ops) op := by
  simp [textAfter]

theorem isRun_after (fresh : ℕ → UInt8) (init : Option CString) :
    IsRun (fun ops buf => after fresh init ops = .ok buf)
      fun buf op buf' => buf.perform fresh op = .ok buf' where
  concat := by
    intro ops op buf'
    rw [after_concat]
    exact bind_eq_ok

theorem after_nil (fresh : ℕ → UInt8) (init : Option CString) :
    after fresh init [] = createString fresh init := by
  simp only [after, List.foldlM_nil, bind_pure]

/-- Whatever state a run comes to holds the appended text. -/
theorem holds_after {fresh : ℕ → UInt8} {init : Option CString} {ops : List Op} {buf : StringT}
    (hrun : after fresh init ops = .ok buf) : CapPow buf ∧ Holds (textAfter init ops) buf := by
  refine (isRun_after fresh init).invariant
    (I := fun ops buf => CapPow buf ∧ Holds (textAfter init ops) buf) ?_ ?_ hrun
  · intro buf hrun
    rw [after_nil] at hrun
    obtain ⟨buf', hcreate, hcap, hheld⟩ := createString_spec fresh (createString_fits hrun)
    obtain rfl := Except.ok.inj (hcreate.symm.trans hrun)
    exact ⟨hcap, hheld⟩
  · rintro pre op buf buf' - - ⟨hcap, hheld⟩ hstep
    obtain ⟨next, hperform, hcap', hheld'⟩ := hheld.perform hcap fresh (hheld.fits hcap hstep)
    obtain rfl := Except.ok.inj (hperform.symm.trans hstep)
    rw [textAfter_concat]
    exact ⟨hcap', hheld'⟩

theorem StepsFit.exists_after {fresh : ℕ → UInt8} {init : Option CString} {ops : List Op}
    (h : StepsFit fresh init ops) : ∃ buf, after fresh init ops = .ok buf := by
  refine (isRun_after fresh init).exists_reached ?_ ?_
  · obtain ⟨buf, hcreate, -⟩ := createString_spec fresh h.1
    exact ⟨buf, (after_nil fresh init).trans hcreate⟩
  · intro pre op buf hpre hrun
    obtain ⟨hcap, hheld⟩ := holds_after hrun
    obtain ⟨buf', hstep, -⟩ := hheld.perform hcap fresh (h.2 pre op hpre buf hrun)
    exact ⟨buf', hstep⟩

theorem Lawful.stepsFit {fresh : ℕ → UInt8} {init : Option CString} {ops : List Op}
    (h : Lawful fresh init ops) : StepsFit fresh init ops := by
  refine ⟨?_, ?_⟩
  · obtain ⟨buf, hrun, -⟩ := h [] List.nil_prefix
    rw [after_nil] at hrun
    exact createString_fits hrun
  · intro pre op hpre buf hrun
    obtain ⟨buf', hrun', -⟩ := h _ hpre
    rw [after_concat, hrun, ok_bind] at hrun'
    obtain ⟨hcap, hheld⟩ := holds_after hrun
    exact hheld.fits hcap hrun'

/-- After every call the buffer holds the appended text, inside its block,
exactly for the runs in which no single character takes the last byte and no
string grows past the largest capacity. -/
theorem lawful_iff_stepsFit (fresh : ℕ → UInt8) (init : Option CString) (ops : List Op) :
    Lawful fresh init ops ↔ StepsFit fresh init ops := by
  constructor
  · exact Lawful.stepsFit
  · intro h pre hpre
    have hfits : StepsFit fresh init pre := ⟨h.1, fun p op hp => h.2 p op (hp.trans hpre)⟩
    obtain ⟨buf, hrun⟩ := hfits.exists_after
    exact ⟨buf, hrun, (holds_after hrun).2⟩

/-- The eighth single character puts its terminator behind the eight bytes. -/
theorem not_lawful_eight_chars :
    ¬ Lawful (fun _ => 0) none (List.replicate 8 (.appendChar 97 (by decide))) := by
  intro h
  obtain ⟨buf, hrun, -⟩ := h _ List.prefix_rfl
  cases hrun

end SimpleVm.StringT
