import SimpleVm.Assembler.IncludeExpansion

/-!
# How deep files include files

`MAX_INCL` is defined and nothing is ever compared with it. As long as no file
is opened at that depth the scanner comes to an end, whatever the files
include; a file that includes itself is opened again and again.
-/

namespace SimpleVm.FileIo

def maxIncl : ℕ := 16

/-- The name in the `include` that the next lexeme completes. -/
def includeName (strtof : CString → UInt32) (c : InputState) : Option CString :=
  match c.fileStack with
  | ⟨_, _, _, b :: input⟩ :: _ =>
      if c.includeSeen then
        ((Scanner.lexer strtof).step c.scanner b input).2.1.bind Scanner.strgLiteral
      else none
  | _ => none

/-- The stack keeps to the limit, a deeper `include` ends the run, and every run ends. -/
structure NestingBounded (fs : FileSystem) (strtof : CString → UInt32) (main : FileT) : Prop where
  depth_le : ∀ ts c, Reaches fs strtof (start main) ts c → c.fileStack.length ≤ maxIncl
  deeper_halts : ∀ ts c, Reaches fs strtof (start main) ts c → c.fileStack.length = maxIncl →
    ∀ name, includeName strtof c = some name → step fs strtof c = none
  halts : ∃ ts c, Reaches fs strtof (start main) ts c ∧ step fs strtof c = none

/-- With all files of the limit open, an `include` can only name a file that cannot be
opened. -/
def WithinLimit (fs : FileSystem) (strtof : CString → UInt32) (c : InputState) : Prop :=
  c.fileStack.length = maxIncl → ∀ name, includeName strtof c = some name →
    sourceText fs name = none

section

variable {fs : FileSystem} {strtof : CString → UInt32}

theorem opens_view (c : InputState) :
    (inclusion fs strtof).opens (view c) = includeName strtof c := by
  rcases c with ⟨scanner, fileStack, includeSeen⟩
  match fileStack with
  | [] => rfl
  | ⟨name, line, column, []⟩ :: below => rfl
  | ⟨name, line, column, b :: input⟩ :: below =>
      have hlexeme := Scanner.bareLexer_step_forget strtof scanner b input
      simp only [Inclusion.opens, view, List.map_cons, includeName, hlexeme]
      cases includeSeen with
      | false =>
          cases ((Scanner.lexer strtof).step scanner b input).2.1 <;> rfl
      | true => rfl

theorem length_stack_view (c : InputState) : (view c).stack.length = c.fileStack.length :=
  List.length_map FileT.buffer

theorem step_view_eq_none {c : InputState} :
    (inclusion fs strtof).step (view c) = none ↔ step fs strtof c = none := by
  rw [step_view, Option.map_eq_none_iff]

/-- An `include` ends the run exactly when its file cannot be opened. -/
theorem step_eq_none_iff {c : InputState} {name : CString}
    (h : includeName strtof c = some name) :
    step fs strtof c = none ↔ sourceText fs name = none := by
  rw [← opens_view] at h
  rw [← step_view_eq_none]
  exact Inclusion.step_eq_none_of_opens h

variable {main : FileT}

theorem NestingBounded.withinLimit (h : NestingBounded fs strtof main) {ts : List Token}
    {c : InputState} (hc : Reaches fs strtof (start main) ts c) : WithinLimit fs strtof c := by
  intro hlimit name hname
  exact (step_eq_none_iff hname).mp (h.deeper_halts ts c hc hlimit name hname)

/-- In a run that opens no file at the limit the stack keeps to it, so the run ends. -/
theorem nestingBounded_of_withinLimit
    (h : ∀ ts c, Reaches fs strtof (start main) ts c → WithinLimit fs strtof c) :
    NestingBounded fs strtof main := by
  have hlimit : ∀ ts last, (inclusion fs strtof).Reaches (view (start main)) ts last →
      last.stack.length = maxIncl → ∀ f, (inclusion fs strtof).opens last = some f →
        (inclusion fs strtof).files f = none := by
    intro ts last hlast hlength f hopens
    obtain ⟨c, hc, rfl⟩ := exists_reaches_of_view hlast
    rw [length_stack_view] at hlength
    rw [opens_view] at hopens
    exact h ts c hc hlength f hopens
  have hdepth : ∀ ts last, (inclusion fs strtof).Reaches (view (start main)) ts last →
      last.stack.length ≤ maxIncl :=
    fun ts last hlast => hlast.depth_le hlimit (show 1 ≤ maxIncl by decide)
  refine ⟨?_, ?_, ?_⟩
  · intro ts c hc
    rw [← length_stack_view]
    exact hdepth ts (view c) hc.view
  · intro ts c hc hlength name hname
    exact (step_eq_none_iff hname).mpr (h ts c hc hlength name hname)
  · obtain ⟨ts, last, hlast, hhalt⟩ := Inclusion.exists_halt_of_depth_le hdepth
    obtain ⟨c, hc, rfl⟩ := exists_reaches_of_view hlast
    exact ⟨ts, c, hc, step_view_eq_none.mp hhalt⟩

end

/-- Nesting is bounded and scanning ends exactly in the runs in which no file is opened
while all files of the limit are open. -/
theorem nestingBounded_iff (fs : FileSystem) (strtof : CString → UInt32) (main : FileT) :
    NestingBounded fs strtof main ↔
      ∀ ts c, Reaches fs strtof (start main) ts c → WithinLimit fs strtof c := by
  constructor
  · intro h ts c hc
    exact h.withinLimit hc
  · exact nestingBounded_of_withinLimit

/-! ## A file that includes itself -/

/-- The name `a`. -/
def selfName : CString := ⟨[97], by decide⟩

/-- The only file has the text `include"\x61"nop`, which names it. -/
def selfFiles : FileSystem := oneFile (Scanner.includeText selfName)

theorem reaches_self (strtof : CString → UInt32) (n : ℕ) : ∃ ts,
    (inclusion selfFiles strtof).Reaches (view (start (includer selfName))) ts
      ⟨Scanner.initial, false,
        Scanner.includeText selfName :: List.replicate n Scanner.nopText⟩ := by
  induction n with
  | zero => exact ⟨[], .refl _⟩
  | succ n ih =>
      obtain ⟨ts, hrun⟩ := ih
      have htext : sourceText selfFiles selfName = some (Scanner.includeText selfName) := by
        decide
      exact ⟨_, hrun.trans (reaches_includer htext (List.replicate n Scanner.nopText))⟩

theorem not_nestingBounded_self : ¬ ∀ (fs : FileSystem) (strtof : CString → UInt32)
    (main : FileT), NestingBounded fs strtof main := by
  intro hall
  obtain ⟨ts, hrun⟩ := reaches_self (fun _ => 0) 16
  obtain ⟨c, hc, hview⟩ := exists_reaches_of_view hrun
  have hdepth := (hall selfFiles (fun _ => 0) (includer selfName)).depth_le ts c hc
  rw [← length_stack_view, hview] at hdepth
  exact absurd hdepth (by decide)

end SimpleVm.FileIo
