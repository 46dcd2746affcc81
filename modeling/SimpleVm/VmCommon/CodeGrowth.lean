import SimpleVm.VmCommon.CodeBuffer

/-!
# Growing the code buffer

The capacity is a power of two that doubles in 32 bits. It never passes
`2 ^ 31`: doubled once more it is zero, and zero stays zero. The buffers are
those that any sequence of calls leads to.
-/

namespace SimpleVm.CodeBuffer

inductive Call where
  | add (item : Item)
  | read (width : Width)
  | readIdx (width : Width) (idx : UInt32)
  | resetCodeIndex
  | setCodeIndex (idx : UInt32)
  deriving DecidableEq

def perform (fresh : ℕ → UInt8) (buf : CodeBuffer) : Call → Except Halt CodeBuffer
  | .add item => do
      let (_, buf) ← buf.add fresh item
      .ok buf
  | .read width => do
      let (_, buf) ← buf.read width
      .ok buf
  | .readIdx width idx => do
      let _ ← buf.readIdx idx.toNat width
      .ok buf
  | .resetCodeIndex => .ok (resetCodeIndex buf)
  | .setCodeIndex idx => setCodeIndex idx.toNat buf

/-- Each call meets its own allocator. -/
inductive Reachable : CodeBuffer → Prop
  | create : Reachable createCodeBuffer
  | call {buf buf' : CodeBuffer} {fresh : ℕ → UInt8} {call : Call} :
      Reachable buf → buf.perform fresh call = .ok buf' → Reachable buf'

/-! ## The doubling loop -/

/-- The loop of `RESIZE` after so many tests of its condition. -/
def doubling (need tests cap : ℕ) : Option ℕ :=
  repeatUntil (fun cap => uint (2 * cap)) (fun cap => decide (need ≤ cap)) tests cap

theorem uint_double {k : ℕ} (hk : k < 31) : uint (2 * 2 ^ k) = 2 ^ (k + 1) := by
  have hlt : 2 ^ (k + 1) < 2 ^ 32 := Nat.pow_lt_pow_right (by norm_num) (by omega)
  rw [uint, ← pow_succ', Nat.mod_eq_of_lt hlt]

theorem exists_doubling {need e : ℕ} (he : e ≤ 31) (hneed : need ≤ 2 ^ 31) :
    ∃ e', e ≤ e' ∧ e' ≤ 31 ∧ need ≤ 2 ^ e' ∧ doubling need 33 (2 ^ e) = some (2 ^ e') := by
  obtain ⟨e', hee', he', hle, -, hloop⟩ := RepeatUntil.exists_double
    (f := fun c => uint (2 * c)) 33 (fun _ hk => uint_double hk) he hneed (by omega)
  exact ⟨e', hee', he', hle, hloop⟩

/-- What the capacity can be while the loop runs. -/
def CapOrZero (cap : ℕ) : Prop := cap = 0 ∨ ∃ e, e ≤ 31 ∧ cap = 2 ^ e

theorem CapOrZero.le {cap : ℕ} (h : CapOrZero cap) : cap ≤ 2 ^ 31 := by
  rcases h with rfl | ⟨e, he, rfl⟩
  · exact Nat.zero_le _
  · exact Nat.pow_le_pow_right (by norm_num) he

theorem CapOrZero.double {cap : ℕ} (h : CapOrZero cap) : CapOrZero (uint (2 * cap)) := by
  rcases h with rfl | ⟨e, he, rfl⟩
  · exact Or.inl rfl
  · obtain he | rfl := Nat.lt_or_eq_of_le he
    · exact Or.inr ⟨e + 1, he, uint_double he⟩
    · exact Or.inl (by decide)

/-- However often it is tested, the condition of the loop stays true. -/
theorem doubling_eq_none {need cap : ℕ} (hcap : CapOrZero cap) (hneed : 2 ^ 31 < need)
    (tests : ℕ) : doubling need tests cap = none := by
  induction tests generalizing cap with
  | zero => rfl
  | succ tests ih =>
      have htest : ¬ need ≤ cap := by
        have := hcap.le
        omega
      have hnext := ih hcap.double
      simp only [doubling, repeatUntil, htest, decide_false] at hnext ⊢
      exact hnext

/-! ## What every call keeps -/

/-- The block has the size that `cap` says, and the code emitted fits. -/
structure Sound (buf : CodeBuffer) : Prop where
  length_code : buf.code.length = buf.cap
  cap_pow : ∃ e, e ≤ 31 ∧ buf.cap = 2 ^ e
  len_le : buf.len ≤ buf.cap

theorem sound_create : Sound createCodeBuffer where
  length_code := rfl
  cap_pow := ⟨3, by omega, rfl⟩
  len_le := Nat.zero_le _

theorem Sound.resize {buf : CodeBuffer} (h : Sound buf) (fresh : ℕ → UInt8) {size : ℕ}
    (hsize : buf.len + size ≤ 2 ^ 31) :
    ∃ buf', buf.resize fresh size = .ok buf' ∧ Sound buf' ∧ buf'.len = buf.len ∧
      buf.len + size ≤ buf'.cap := by
  by_cases hroom : buf.cap < buf.len + size
  · obtain ⟨e, he, hcap⟩ := h.cap_pow
    obtain ⟨e', -, he', hle, hloop⟩ := exists_doubling he hsize
    rw [← hcap, doubling] at hloop
    simp only [CodeBuffer.resize, if_pos hroom, hloop]
    refine ⟨_, rfl, ⟨?_, ⟨e', he', rfl⟩, ?_⟩, rfl, hle⟩
    · exact Block.length_grow _ _ _
    · exact Nat.le_trans (Nat.le_add_right _ _) hle
  · simp only [CodeBuffer.resize, if_neg hroom]
    exact ⟨buf, rfl, h, rfl, Nat.not_lt.mp hroom⟩

theorem Sound.resize_diverges {buf : CodeBuffer} (h : Sound buf) (fresh : ℕ → UInt8)
    {size : ℕ} (hsize : 2 ^ 31 < buf.len + size) :
    buf.resize fresh size = .error .diverges := by
  have hroom : buf.cap < buf.len + size :=
    Nat.lt_of_le_of_lt (CapOrZero.le (Or.inr h.cap_pow)) hsize
  have hloop := doubling_eq_none (Or.inr h.cap_pow) hsize 33
  rw [doubling] at hloop
  simp only [CodeBuffer.resize, if_pos hroom, hloop]

theorem Sound.add {buf : CodeBuffer} (h : Sound buf) (fresh : ℕ → UInt8) {item : Item}
    (hsize : buf.len + item.width.size ≤ 2 ^ 31) :
    ∃ buf', buf.add fresh item = .ok (buf.len + item.width.size, buf') ∧ Sound buf' ∧
      buf'.len = buf.len + item.width.size := by
  obtain ⟨buf₁, hresize, h₁, hlen, hroom⟩ := h.resize fresh hsize
  have hfits : buf₁.len + item.bytes.length ≤ buf₁.code.length := by
    rw [hlen, Item.length_bytes, h₁.length_code]
    exact hroom
  have hstore := Block.store?_eq hfits
  have hcode := Block.length_overwrite hfits
  have hnew : uint (buf₁.len + item.width.size) = buf.len + item.width.size := by
    rw [hlen, uint]
    exact Nat.mod_eq_of_lt (by omega)
  refine ⟨{ buf₁ with
      code := Block.overwrite buf₁.code buf₁.len item.bytes,
      len := buf.len + item.width.size }, ?_, ?_, rfl⟩
  · rw [Item.bytes] at hstore
    simp only [add_eq, addCode, hresize, ok_bind, hstore, hnew, Item.bytes]
  · exact ⟨hcode.trans h₁.length_code, h₁.cap_pow, hroom⟩

theorem Sound.add_diverges {buf : CodeBuffer} (h : Sound buf) (fresh : ℕ → UInt8) {item : Item}
    (hsize : 2 ^ 31 < buf.len + item.width.size) : buf.add fresh item = .error .diverges := by
  simp only [add_eq, addCode, h.resize_diverges fresh hsize, error_bind]

theorem Sound.read {buf buf' : CodeBuffer} {width : Width} {item : Item} (h : Sound buf)
    (hread : buf.read width = .ok (item, buf')) : Sound buf' := by
  rw [read_eq, bind_eq_ok] at hread
  obtain ⟨⟨n, buf₁⟩, hcode, heq⟩ := hread
  obtain ⟨-, rfl⟩ : _ ∧ buf₁ = buf' := by simpa using heq
  unfold readCode at hcode
  split at hcode
  · obtain ⟨-, rfl⟩ : _ ∧ _ = buf₁ := by simpa using hcode
    exact ⟨h.length_code, h.cap_pow, h.len_le⟩
  · cases hcode

theorem Sound.perform {buf buf' : CodeBuffer} {fresh : ℕ → UInt8} {call : Call} (h : Sound buf)
    (hcall : buf.perform fresh call = .ok buf') : Sound buf' := by
  cases call with
  | add item =>
      obtain ⟨⟨len, buf₁⟩, hadd, heq⟩ := bind_eq_ok.mp hcall
      obtain rfl : buf₁ = buf' := by simpa using heq
      by_cases hsize : buf.len + item.width.size ≤ 2 ^ 31
      · obtain ⟨buf₂, hok, h₂, -⟩ := h.add fresh hsize
        obtain ⟨-, rfl⟩ : _ ∧ buf₂ = buf₁ := by simpa [hok] using hadd
        exact h₂
      · rw [h.add_diverges fresh (Nat.not_le.mp hsize)] at hadd
        cases hadd
  | read width =>
      obtain ⟨⟨item, buf₁⟩, hread, heq⟩ := bind_eq_ok.mp hcall
      obtain rfl : buf₁ = buf' := by simpa using heq
      exact h.read hread
  | readIdx width idx =>
      obtain ⟨item, -, heq⟩ := bind_eq_ok.mp hcall
      obtain rfl := Except.ok.inj heq
      exact h
  | resetCodeIndex =>
      obtain rfl : CodeBuffer.resetCodeIndex buf = buf' := by simpa [CodeBuffer.perform] using hcall
      exact ⟨h.length_code, h.cap_pow, h.len_le⟩
  | setCodeIndex idx =>
      simp only [CodeBuffer.perform, CodeBuffer.setCodeIndex] at hcall
      split at hcall
      · obtain rfl := Except.ok.inj hcall
        exact ⟨h.length_code, h.cap_pow, h.len_le⟩
      · cases hcall

theorem Reachable.sound {buf : CodeBuffer} (h : Reachable buf) : Sound buf := by
  induction h with
  | create => exact sound_create
  | call _ hcall ih => exact ih.perform hcall

/-! ## Where growing works -/

/-- The loop ends with room for `size` more bytes, or the program stops in `FATAL`. -/
def Grows (fresh : ℕ → UInt8) (buf : CodeBuffer) (size : ℕ) : Prop :=
  (∃ buf', buf.resize fresh size = .ok buf' ∧ buf.len + size ≤ buf'.cap) ∨
    buf.resize fresh size = .error .fatal

/-- Code up to `2 ^ 31` bytes has room. One byte more and the loop spins. -/
theorem grows_iff {buf : CodeBuffer} (h : Reachable buf) (fresh : ℕ → UInt8) (item : Item) :
    buf.Grows fresh item.width.size ↔ buf.len + item.width.size ≤ 2 ^ 31 := by
  constructor
  · intro hgrows
    by_contra hsize
    have hdiverges := h.sound.resize_diverges fresh (Nat.not_le.mp hsize)
    simp [Grows, hdiverges] at hgrows
  · intro hsize
    obtain ⟨buf', hresize, -, -, hroom⟩ := h.sound.resize fresh hsize
    exact Or.inl ⟨buf', hresize, hroom⟩

/-- A `long` behind one byte doubles the eight bytes of the block. -/
theorem grows_iff_long : ∃ buf, Reachable buf ∧ buf.len = 1 ∧ buf.Grows (fun _ => 0) 8 ∧
    ∃ buf', buf.resize (fun _ => 0) 8 = .ok buf' ∧ buf.cap = 8 ∧ buf'.cap = 16 := by
  have hcall : createCodeBuffer.perform (fun _ => 0) (.add (.char 7)) =
      .ok { createCodeBuffer with code := [7, 0, 0, 0, 0, 0, 0, 0], len := 1 } := by decide
  have h := Reachable.create.call hcall
  exact ⟨_, h, rfl, (grows_iff h (fun _ => 0) (.long 5)).mpr (by decide),
    { createCodeBuffer with
      code := [7, 0, 0, 0, 0, 0, 0, 0] ++ List.replicate 8 0, len := 1, cap := 16 },
    by decide, rfl, rfl⟩

theorem exists_reachable_of_len {n : ℕ} (hn : n ≤ 2 ^ 31) :
    ∃ buf, Reachable buf ∧ buf.len = n := by
  induction n with
  | zero => exact ⟨createCodeBuffer, .create, rfl⟩
  | succ n ih =>
      obtain ⟨buf, hreach, hlen⟩ := ih (Nat.le_of_succ_le hn)
      have hsize : buf.len + (Item.char 0).width.size ≤ 2 ^ 31 := by
        rw [hlen]
        exact hn
      obtain ⟨buf', hadd, -, hlen'⟩ := hreach.sound.add (fun _ => 0) hsize
      have hcall : buf.perform (fun _ => 0) (.add (.char 0)) = .ok buf' := by
        rw [perform, hadd, ok_bind]
      exact ⟨buf', hreach.call hcall, hlen'.trans (by rw [hlen]; rfl)⟩

/-- After `2 ^ 31` calls of `add_code_char` the next one spins. -/
theorem exists_not_grows : ∃ buf, Reachable buf ∧ buf.len = 2 ^ 31 ∧
    ¬ buf.Grows (fun _ => 0) (Item.char 0).width.size ∧
    ∀ tests, doubling (buf.len + 1) tests buf.cap = none := by
  obtain ⟨buf, hreach, hlen⟩ := exists_reachable_of_len (n := 2 ^ 31) (Nat.le_refl _)
  have hsize : 2 ^ 31 < buf.len + 1 := by omega
  refine ⟨buf, hreach, hlen, ?_, ?_⟩
  · have hdiverges : buf.resize (fun _ => 0) (Item.char 0).width.size = .error .diverges :=
      hreach.sound.resize_diverges _ hsize
    simp [Grows, hdiverges]
  · exact doubling_eq_none (Or.inr hreach.sound.cap_pow) hsize

end SimpleVm.CodeBuffer
