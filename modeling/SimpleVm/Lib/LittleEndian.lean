import Mathlib.Algebra.Order.Group.Nat
import Mathlib.Tactic.Ring

/-!
# Little-endian numbers

A number written in `w` bytes, the low byte first, reads back as itself
whenever it fits.
-/

namespace LittleEndian

def encode : ℕ → ℕ → List UInt8
  | 0, _ => []
  | w + 1, n => UInt8.ofNat n :: encode w (n / 256)

def decode : List UInt8 → ℕ
  | [] => 0
  | b :: bs => b.toNat + 256 * decode bs

@[simp] theorem length_encode (w n : ℕ) : (encode w n).length = w := by
  induction w generalizing n with
  | zero => rfl
  | succ w ih => simp [encode, ih]

theorem decode_encode {w n : ℕ} (h : n < 256 ^ w) : decode (encode w n) = n := by
  induction w generalizing n with
  | zero =>
      have hn : n = 0 := by simpa using h
      simp [encode, decode, hn]
  | succ w ih =>
      have hlow : (UInt8.ofNat n).toNat = n % 256 := by simp
      have hdiv : n / 256 < 256 ^ w := by
        rw [Nat.div_lt_iff_lt_mul (by norm_num)]
        rwa [pow_succ] at h
      rw [encode, decode, hlow, ih hdiv]
      omega

theorem decode_lt (bs : List UInt8) : decode bs < 256 ^ bs.length := by
  induction bs with
  | nil => exact Nat.one_pos
  | cons b bs ih =>
      have hb := b.toNat_lt
      rw [decode, List.length_cons, pow_succ]
      omega

theorem encode_decode (bs : List UInt8) : encode bs.length (decode bs) = bs := by
  induction bs with
  | nil => rfl
  | cons b bs ih =>
      have hb := b.toNat_lt
      have hlow : UInt8.ofNat (b.toNat + 256 * decode bs) = b := by
        apply UInt8.toNat_inj.mp
        rw [UInt8.toNat_ofNat']
        omega
      have hdiv : (b.toNat + 256 * decode bs) / 256 = decode bs := by omega
      rw [List.length_cons, encode, decode, hlow, hdiv, ih]

/-- The bytes that are missing at the high end count as zero. -/
theorem decode_append_zeros (bs : List UInt8) (n : ℕ) :
    decode (bs ++ List.replicate n 0) = decode bs := by
  induction bs with
  | nil =>
      induction n with
      | zero => rfl
      | succ n ih =>
          rw [List.nil_append] at ih
          rw [List.nil_append, List.replicate_succ]
          change 0 + 256 * decode (List.replicate n 0) = 0
          rw [ih]
          rfl
  | cons b bs ih => rw [List.cons_append, decode, decode, ih]

end LittleEndian
