import SimpleVm.Assembler.IncludeExpansion
import SimpleVm.Assembler.ParserRun

/-!
# Programs of several files

A file can be included when it is a list of instructions on its own. The
parser gets the instructions of every file behind the directive that opens it,
and does with them what it does with one file that has them all.
-/

namespace SimpleVm.Syntax

open FileIo

def Instruction.included : Instruction → Option CString
  | .includeFile name => some name
  | _ => none

section

variable (fs : FileSystem) (strtof : CString → UInt32)

/-- The file that an `include` opens is this list of instructions, which may be empty, and is
not within a comment or a string at its end. -/
def HoldsSource (name : CString) (source : List Instruction) : Prop :=
  (∀ i ∈ source, i.Ordered) ∧ ∃ text, sourceText fs name = some text ∧
    Scanner.tokens strtof text = fringe source ∧ Scanner.endCondition strtof text = .INITIAL

/-- Every `include` has the instructions of its file behind it. -/
inductive Inlined : List Instruction → List Instruction → Prop
  | nil : Inlined [] []
  | cons {i : Instruction} {source out : List Instruction} (hi : i.included = none)
      (hrest : Inlined source out) : Inlined (i :: source) (i :: out)
  | includeFile {name : CString} {inner innerOut source out : List Instruction}
      (hfile : HoldsSource fs strtof name inner) (hinner : Inlined inner innerOut)
      (hrest : Inlined source out) :
      Inlined (.includeFile name :: source) (.includeFile name :: (innerOut ++ out))

end

variable {fs : FileSystem} {strtof : CString → UInt32}

/-! ## No directive within an instruction -/

@[simp] theorem registerToken_ne (r : Register) : Token.keyword .INCLUDE ≠ registerToken r := by
  rw [registerToken]
  split <;> simp

@[simp] theorem constantToken_ne (c : Parser.IndexConstant) :
    Token.keyword .INCLUDE ≠ constantToken c := by
  cases c <;> simp [constantToken]

@[simp] theorem not_mem_indexFringe (expr : IndexExpr) :
    Token.keyword .INCLUDE ∉ indexFringe expr := by
  rw [indexFringe, List.mem_map]
  rintro ⟨l, -, hl⟩
  cases l with
  | leaf c => exact constantToken_ne c hl.symm
  | _ => cases hl

@[simp] theorem VarConstant.token_ne (c : VarConstant) : Token.keyword .INCLUDE ≠ c.token := by
  cases c <;> simp [token]

theorem Inlined.ordered {source out : List Instruction} (h : Inlined fs strtof source out)
    (hordered : ∀ i ∈ source, i.Ordered) : ∀ i ∈ out, i.Ordered := by
  induction h with
  | nil => exact hordered
  | cons _ _ ih =>
      rw [List.forall_mem_cons] at hordered ⊢
      exact ⟨hordered.1, ih hordered.2⟩
  | includeFile hfile _ _ ihinner ihrest =>
      rw [List.forall_mem_cons] at hordered
      rw [List.forall_mem_cons, List.forall_mem_append]
      exact ⟨trivial, ihinner hfile.1, ihrest hordered.2⟩

/-! ## Files without cycles -/

end SimpleVm.Syntax
