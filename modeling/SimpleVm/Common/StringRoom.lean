import SimpleVm.Common.StringLaw

/-!
# The block of a string buffer

Every call that comes back leaves a block as long as the capacity says, with
a power of two for its capacity, whatever the block holds. That is all that
`clear_string` needs to begin a new text.
-/

namespace SimpleVm.StringT

theorem capFor_of_le {cap need : ℕ} (h : need ≤ cap) : capFor cap need = cap :=
  if_neg (Nat.not_lt.mpr h)

/-- Growing in two steps reaches the same capacity as growing at once. -/
theorem capFor_capFor {need need' : ℕ} (cap : ℕ) (h : need ≤ need') :
    capFor (capFor cap need) need' = capFor cap need' := by
  by_cases hgrow : cap < need
  · have hpow : capFor cap need = 2 ^ Nat.clog 2 need := if_pos hgrow
    have hpow' : capFor cap need' = 2 ^ Nat.clog 2 need' := if_pos (hgrow.trans_le h)
    by_cases hmore : capFor cap need < need'
    · rw [hpow', capFor, if_pos hmore]
    · -- the first power of two was large enough for both
      have hle : need' ≤ 2 ^ Nat.clog 2 need := hpow ▸ Nat.not_lt.mp hmore
      have hlog : Nat.clog 2 need' = Nat.clog 2 need :=
        Nat.le_antisymm (Nat.clog_le_of_le_pow hle) (Nat.clog_mono_right 2 h)
      rw [capFor_of_le (Nat.not_lt.mp hmore), hpow, hpow', hlog]
  · rw [capFor_of_le (Nat.not_lt.mp hgrow)]

theorem exists_pow_of_doubleCap {need : ℤ} {e cap : ℕ} (he : e ≤ 30) (hneed : 0 < need)
    (h : doubleCap need (2 ^ e) = .ok cap) : ∃ e' ≤ 30, cap = 2 ^ e' := by
  have hle := le_of_doubleCap h
  rw [doubleCap] at h
  split at h
  · next c hc =>
      have hstart : ShiftedCap ((2 ^ e : ℕ) : ℤ) := .inl ⟨e, he, by push_cast; rfl⟩
      obtain rfl := Except.ok.inj h
      rcases RepeatUntil.invariant (P := ShiftedCap) (fun _ => ShiftedCap.double) hstart hc with
        ⟨e', he', rfl⟩ | rfl | rfl
      · refine ⟨e', he', ?_⟩
        rw [show (2 : ℤ) ^ e' = ((2 ^ e' : ℕ) : ℤ) by push_cast; rfl, Int.toNat_natCast]
      · norm_num at hle
        omega
      · norm_num at hle
        omega
  · cases h

/-- A block as the allocator gave it, whatever it holds. -/
structure Sound (buf : StringT) : Prop where
  length_buffer : buf.buffer.length = buf.cap
  capPow : CapPow buf

theorem Holds.sound {text : CString} {buf : StringT} (h : Holds text buf) (hcap : CapPow buf) :
    Sound buf := ⟨h.length_buffer, hcap⟩

namespace Sound

variable {buf buf' : StringT} {fresh : ℕ → UInt8} (h : Sound buf)

include h

theorem clearString : ∃ buf', buf.clearString = .ok buf' ∧ CapPow buf' ∧ buf'.cap = buf.cap ∧
    Holds CString.empty buf' := by
  obtain ⟨e, he, hpow⟩ := h.capPow
  have hpos : 0 < buf.cap := by
    rw [hpow]
    exact Nat.two_pow_pos e
  have hblock := h.length_buffer
  obtain ⟨block, hwrite, hlength, hstarts⟩ := writeBlock_text [0]
    (show [] <+: buf.buffer from List.nil_prefix)
    (by simp only [List.length_nil, List.length_singleton]; omega)
  rw [List.length_nil] at hwrite
  rw [StringT.clearString]
  simp only [hwrite, ok_bind]
  exact ⟨_, rfl, ⟨e, he, hpow⟩, rfl, hlength.trans hblock, hstarts, rfl, hpos⟩

theorem of_makeRoom {need : ℤ} (hrun : buf.makeRoom fresh need = .ok buf') : Sound buf' := by
  obtain ⟨e, he, hpow⟩ := h.capPow
  rw [makeRoom] at hrun
  split at hrun
  · next hgrow =>
      obtain ⟨cap, hdouble, hset⟩ := bind_eq_ok.mp hrun
      obtain rfl := Except.ok.inj hset
      rw [hpow] at hdouble
      exact ⟨Block.length_grow _ _ _, exists_pow_of_doubleCap he (by omega) hdouble⟩
  · obtain rfl := Except.ok.inj hrun
    exact h

theorem of_appendString {str : CString} (hrun : buf.appendString fresh str = .ok buf') :
    Sound buf' := by
  simp only [appendString, bind_eq_ok, Except.ok.injEq] at hrun
  obtain ⟨grown, hgrown, buffer, hcat, len, -, rfl⟩ := hrun
  have hsound := h.of_makeRoom hgrown
  rw [strcat] at hcat
  obtain ⟨n, -, hwrite⟩ := bind_eq_ok.mp hcat
  exact ⟨(writeBlock_inside hwrite).2.trans hsound.length_buffer, hsound.capPow⟩

theorem of_makeRoomChar (hrun : buf.makeRoomChar fresh = .ok buf') : Sound buf' := by
  obtain ⟨e, he, hpow⟩ := h.capPow
  rw [makeRoomChar] at hrun
  split at hrun
  · split at hrun
    · cases hrun
    · next hsmall =>
        obtain rfl := Except.ok.inj hrun
        refine ⟨Block.length_grow _ _ _, e + 1, ?_, ?_⟩
        · rw [hpow, Nat.not_le, Nat.pow_lt_pow_iff_right Nat.one_lt_two] at hsmall
          exact hsmall
        · simp only [hpow, Nat.pow_succ']
  · obtain rfl := Except.ok.inj hrun
    exact h

theorem of_appendStringChar {ch : ℤ} (hrun : buf.appendStringChar fresh ch = .ok buf') :
    Sound buf' := by
  simp only [appendStringChar, bind_eq_ok, Except.ok.injEq] at hrun
  obtain ⟨grown, hgrown, buffer, hwrite, buffer', hend, rfl⟩ := hrun
  have hsound := h.of_makeRoomChar hgrown
  refine ⟨?_, hsound.capPow⟩
  exact ((writeBlock_inside hend).2.trans (writeBlock_inside hwrite).2).trans hsound.length_buffer

end Sound

theorem sound_empty : Sound ⟨List.replicate 8 0, 0, 8⟩ := holds_empty.sound capPow_empty

end SimpleVm.StringT
