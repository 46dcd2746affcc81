import Mathlib.Algebra.Group.Int.Defs
import Mathlib.Algebra.Group.Nat.Defs
import Mathlib.Data.Int.Basic
import SimpleVm.Lib.Heap

/-!
# How a call of the C code ends

A call either returns its value and the new state, or control never comes
back to the caller. The second case is an error of `Except`.
-/

namespace SimpleVm

universe u

inductive Halt where
  /-- `FATAL`: a message on stderr, then `exit(1)`. -/
  | fatal
  /-- Usage or version text, and for a mistake a message before it, then `exit(1)`. -/
  | exit
  /-- A read or a write outside the object it goes through, or through `NULL`. -/
  | invalidAccess
  /-- A loop of the source that is never left. -/
  | diverges
  /-- An integer division that the processor refuses. -/
  | trap
  deriving DecidableEq, Repr

theorem bind_eq_ok {ε : Type} {α β : Type u} {x : Except ε α} {f : α → Except ε β} {b : β} :
    x >>= f = .ok b ↔ ∃ a, x = .ok a ∧ f a = .ok b := by
  cases x with
  | error e => simp [bind, Except.bind]
  | ok a => simp [bind, Except.bind]

@[simp] theorem ok_bind {ε : Type} {α β : Type u} (a : α) (f : α → Except ε β) :
    (Except.ok a >>= f) = f a := rfl

@[simp] theorem error_bind {ε : Type} {α β : Type u} (e : ε) (f : α → Except ε β) :
    (Except.error e >>= f) = .error e := rfl

theorem exists_of_isOk {ε : Type} {α : Type u} {x : Except ε α} (h : x.isOk) :
    ∃ a, x = .ok a := by
  cases x with
  | error e => cases h
  | ok a => exact ⟨a, rfl⟩

/-- What lies where a pointer points to; `none` is `NULL`. -/
def deref {β : Type u} (heap : Heap β) : Option ℕ → Except Halt β
  | none => .error .invalidAccess
  | some a =>
      match heap.cells a with
      | none => .error .invalidAccess
      | some cell => .ok cell

theorem deref_of_cell {β : Type u} {heap : Heap β} {a : ℕ} {cell : β}
    (h : heap.cells a = some cell) : deref heap (some a) = .ok cell := by
  simp only [deref, h]

theorem cell_of_deref {β : Type u} {heap : Heap β} {a : ℕ} {cell : β}
    (h : deref heap (some a) = .ok cell) : heap.cells a = some cell := by
  simp only [deref] at h
  split at h
  · cases h
  · next hcell => rw [hcell, Except.ok.inj h]

/-- Conversion to a 32-bit `int`, which wraps around. -/
def toInt (n : ℤ) : ℤ := Int.bmod n (2 ^ 32)

theorem toInt_of_lt {n : ℤ} (h₀ : -2 ^ 31 ≤ n) (h₁ : n < 2 ^ 31) : toInt n = n := by
  unfold toInt
  rw [Int.bmod_eq_of_le] <;> omega

end SimpleVm
