import Mathlib.Data.List.TakeWhile

/-!
# Strings of C

A C string is the list of its bytes before the terminator, so `strcmp`
returns zero exactly on equal strings and `strlen` is the length.
-/

namespace SimpleVm

structure CString where
  bytes : List UInt8
  nul_notMem : 0 ∉ bytes
  deriving DecidableEq

namespace CString

@[ext] theorem ext {s t : CString} (h : s.bytes = t.bytes) : s = t := by
  cases s
  cases t
  cases h
  rfl

def strlen (s : CString) : ℕ := s.bytes.length

/-- The string that starts at the first of `mem`: everything before the first NUL. -/
def read (mem : List UInt8) : CString where
  bytes := mem.takeWhile (· ≠ 0)
  nul_notMem := by
    intro h
    simpa using List.mem_takeWhile_imp h

def empty : CString := ⟨[], by simp⟩

def append (s t : CString) : CString where
  bytes := s.bytes ++ t.bytes
  nul_notMem := by simp [s.nul_notMem, t.nul_notMem]

def push (s : CString) (c : UInt8) (hc : c ≠ 0) : CString where
  bytes := s.bytes ++ [c]
  nul_notMem := by simp [s.nul_notMem, hc.symm]

theorem takeWhile_append_nul {l : List UInt8} (hl : 0 ∉ l) (rest : List UInt8) :
    (l ++ 0 :: rest).takeWhile (· ≠ 0) = l := by
  induction l with
  | nil => simp
  | cons a l ih =>
      have ha : a ≠ 0 := fun h => hl (by simp [h])
      have hl' : 0 ∉ l := fun h => hl (List.mem_cons_of_mem a h)
      simpa [ha] using ih hl'

@[simp] theorem read_append_nul (s : CString) (rest : List UInt8) :
    read (s.bytes ++ 0 :: rest) = s :=
  ext (takeWhile_append_nul s.nul_notMem rest)

theorem read_bytes (s : CString) : read s.bytes = s := by
  apply CString.ext
  rw [CString.read, List.takeWhile_eq_self_iff]
  intro b hb
  simp only [ne_eq, decide_eq_true_eq]
  rintro rfl
  exact s.nul_notMem hb

theorem findIdx?_first {p : UInt8 → Bool} {piece : List UInt8} {b : UInt8}
    (hpiece : ∀ x ∈ piece, p x = false) (hb : p b = true) (rest : List UInt8) :
    (piece ++ b :: rest).findIdx? p = some piece.length := by
  induction piece with
  | nil => simp [List.findIdx?_cons, hb]
  | cons x piece ih =>
      have hx := hpiece x List.mem_cons_self
      simp [List.findIdx?_cons, hx, ih fun y hy => hpiece y (List.mem_cons_of_mem x hy)]

end CString

end SimpleVm
