import SimpleVm.Common.StringLaw

/-!
# Buffers of a fixed size

`strcpy` and `strcat` write as much as there is to write. `strncpy` never
writes more than it may, but a string that fills the buffer is not terminated
in it, and whoever looks for its end goes on behind the buffer.
-/

namespace SimpleVm

def strcpy (block : List UInt8) (str : CString) : Except Halt (List UInt8) :=
  writeBlock block 0 (str.bytes ++ [0])

/-- At most `n` bytes are copied, and what is left of the `n` is filled with NUL. -/
def strncpy (block : List UInt8) (str : CString) (n : ℕ) : Except Halt (List UInt8) :=
  writeBlock block 0 ((str.bytes ++ List.replicate n 0).take n)

/-- The string at `head` of the block. -/
def stringAt (block : List UInt8) (head : ℕ) : Except Halt CString :=
  if 0 ∈ block.drop head then .ok (CString.read (block.drop head)) else .error .invalidAccess

namespace FixedBuffer

variable {block : List UInt8} {text str : CString} {n : ℕ}

theorem strcpy_fits (block : List UInt8) (hfit : str.strlen + 1 ≤ block.length) :
    ∃ block', strcpy block str = .ok block' ∧ block'.length = block.length ∧
      str.bytes ++ [0] <+: block' := by
  have hroom : ([] : List UInt8).length + (str.bytes ++ [0]).length ≤ block.length := by
    rw [List.length_nil, Nat.zero_add, List.length_append, List.length_singleton]
    exact hfit
  exact StringT.writeBlock_text (str.bytes ++ [0]) List.nil_prefix hroom

theorem strcpy_outside (hfull : block.length < str.strlen + 1) :
    strcpy block str = .error .invalidAccess := by
  apply StringT.writeBlock_outside
  rw [Nat.zero_add, List.length_append, List.length_singleton]
  exact hfull

theorem strcat_outside (h : text.bytes ++ [0] <+: block)
    (hfull : block.length < text.strlen + str.strlen + 1) :
    strcat block str = .error .invalidAccess := by
  rw [strcat, StringT.strlenBlock_eq h, ok_bind]
  apply StringT.writeBlock_outside
  rw [List.length_append, List.length_singleton, ← Nat.add_assoc]
  exact hfull

theorem strcat_unterminated (hnone : 0 ∉ block) : strcat block str = .error .invalidAccess := by
  rw [strcat, strlenBlock, if_neg hnone, error_bind]

theorem strncpy_eq (hlen : block.length = n) (str : CString) :
    strncpy block str n = .ok ((str.bytes ++ List.replicate n 0).take n) := by
  have hcount : ((str.bytes ++ List.replicate n (0 : UInt8)).take n).length = n := by
    rw [List.length_take, List.length_append, List.length_replicate]
    omega
  rw [strncpy, writeBlock, Block.store?, if_pos (by omega)]
  dsimp only
  rw [hcount, List.take_zero, List.nil_append, Nat.zero_add, ← hlen, List.drop_length,
    List.append_nil]

theorem strncpy_fits (hlen : block.length = n) (hfit : str.strlen < n) :
    ∃ rest, strncpy block str n = .ok (str.bytes ++ 0 :: rest) ∧
      (str.bytes ++ 0 :: rest).length = n := by
  obtain ⟨k, rfl⟩ : ∃ k, n = str.bytes.length + (k + 1) := ⟨n - str.strlen - 1, by
    rw [CString.strlen] at hfit ⊢
    omega⟩
  have htake : (str.bytes ++ List.replicate (str.bytes.length + (k + 1)) (0 : UInt8)).take
      (str.bytes.length + (k + 1)) = str.bytes ++ 0 :: List.replicate k 0 := by
    rw [List.take_append, List.take_of_length_le (Nat.le_add_right _ _), Nat.add_sub_cancel_left,
      List.take_replicate, Nat.min_eq_left (Nat.le_add_left _ _), List.replicate_succ]
  refine ⟨List.replicate k 0, ?_, ?_⟩
  · rw [strncpy_eq hlen, htake]
  · rw [List.length_append, List.length_cons, List.length_replicate]

theorem strncpy_full (hlen : block.length = n) (hfull : n ≤ str.strlen) :
    strncpy block str n = .ok (str.bytes.take n) := by
  rw [strncpy_eq hlen, List.take_append_of_le_length hfull]

theorem stringAt_eq (pre rest : List UInt8) (str : CString) :
    stringAt (pre ++ (str.bytes ++ 0 :: rest)) pre.length = .ok str := by
  have hmem : 0 ∈ str.bytes ++ 0 :: rest := List.mem_append_right _ List.mem_cons_self
  rw [stringAt, List.drop_left, if_pos hmem, CString.read_append_nul]

theorem stringAt_prefix (h : text.bytes ++ [0] <+: block) : stringAt block 0 = .ok text := by
  obtain ⟨rest, rfl⟩ := h
  rw [List.append_assoc, List.singleton_append]
  exact stringAt_eq [] rest text

theorem stringAt_outside {head : ℕ} (hnone : 0 ∉ block.drop head) :
    stringAt block head = .error .invalidAccess := if_neg hnone

end FixedBuffer

end SimpleVm
