import Mathlib.Data.List.DropRight
import SimpleVm.Assembler.Include
import SimpleVm.Lib.Runs

/-!
# Line and column

`update_numbers` counts the newlines of a lexeme as a string and then sets the
column to one, wherever in the lexeme the last newline is. The file stack
keeps the numbers of every file that is open, so what is counted in an
included file does not touch those of the file that includes it.
-/

namespace SimpleVm.FileIo

def getLineNo (fileStack : List FileT) : ℤ :=
  match getFileBuffer fileStack with
  | some ptr => toInt ptr.line
  | none => -1

def getColNo (fileStack : List FileT) : ℤ :=
  match getFileBuffer fileStack with
  | some ptr => toInt ptr.column
  | none => -1

/-! ## Sources cut in any way -/

/-- A file on the stack, and what has been read of it. -/
structure OpenFile where
  file : FileT
  consumed : List UInt8
  deriving DecidableEq

inductive ScanEvent where
  | lexeme (yytext : List UInt8)
  | openFile (fn : CString) (text : List UInt8)
  | endOfFile

/-- A lexeme is any text at the front of what is left of the file. -/
def ScanEvent.step (stack : List OpenFile) : ScanEvent → Option (List OpenFile)
  | .lexeme yytext =>
      match stack with
      | [] => none
      | ⟨ptr, consumed⟩ :: below =>
          if yytext ≠ [] ∧ yytext <+: ptr.buffer then
            let ptr := updateNumbers yytext { ptr with buffer := ptr.buffer.drop yytext.length }
            some (⟨ptr, consumed ++ yytext⟩ :: below)
          else none
  | .openFile fn text => some (⟨⟨fn, 1, 1, text⟩, []⟩ :: stack)
  | .endOfFile =>
      match stack with
      | [] => none
      | ⟨ptr, _⟩ :: below => if ptr.buffer = [] then some below else none

/-- The open files after these events, from the start on. -/
def filesAfter (events : List ScanEvent) : Option (List OpenFile) :=
  events.foldlM ScanEvent.step []

def lineOf (consumed : List UInt8) : ℕ := 1 + consumed.count 10

/-- One more than the characters since the last newline. -/
def columnOf (consumed : List UInt8) : ℕ := 1 + (consumed.rtakeWhile (· ≠ 10)).length

def PositionRight (stack : List OpenFile) : Prop :=
  ∀ f ∈ stack.head?, getLineNo (stack.map OpenFile.file) = lineOf f.consumed ∧
    getColNo (stack.map OpenFile.file) = columnOf f.consumed

def PositionsRight (events : List ScanEvent) : Prop :=
  ∀ pre, pre <+: events → ∀ stack, filesAfter pre = some stack → PositionRight stack

/-- Without a newline, or with one at the end and no NUL. -/
def CountsNewlines (yytext : List UInt8) : Prop :=
  10 ∉ yytext ∨ yytext.getLast? = some 10 ∧ 0 ∉ yytext

/-- The line and the column are numbers that an `int` can hold. -/
def PositionsFit (events : List ScanEvent) : Prop :=
  ∀ pre, pre <+: events → ∀ stack, filesAfter pre = some stack → ∀ f ∈ stack.head?,
    lineOf f.consumed < 2 ^ 31 ∧ columnOf f.consumed < 2 ^ 31

theorem filesAfter_concat (events : List ScanEvent) (e : ScanEvent) :
    filesAfter (events ++ [e]) = (filesAfter events).bind fun stack => e.step stack := by
  simp only [filesAfter, List.foldlM_append, List.foldlM_cons, List.foldlM_nil, bind_pure]
  rfl

/-! ## One lexeme -/

theorem lineOf_append (consumed yytext : List UInt8) :
    lineOf (consumed ++ yytext) = lineOf consumed + yytext.count 10 := by
  rw [lineOf, lineOf, List.count_append, Nat.add_assoc]

theorem columnOf_append {yytext : List UInt8} (consumed : List UInt8) (h : 10 ∉ yytext) :
    columnOf (consumed ++ yytext) = columnOf consumed + yytext.length := by
  induction yytext using List.reverseRecOn with
  | nil => rw [List.append_nil, List.length_nil, Nat.add_zero]
  | append_singleton yytext b ih =>
      rw [List.mem_append, not_or, List.mem_singleton] at h
      have hb : decide (b ≠ 10) = true := by simpa using fun heq : b = 10 => h.2 heq.symm
      have htail := ih h.1
      rw [columnOf] at htail ⊢
      rw [← List.append_assoc, List.rtakeWhile_concat, if_pos hb, List.length_append,
        List.length_append, ← Nat.add_assoc, htail, Nat.add_assoc]

/-- The column is one exactly behind a newline and at the beginning. -/
theorem columnOf_eq_one {consumed : List UInt8} :
    columnOf consumed = 1 ↔ consumed = [] ∨ consumed.getLast? = some 10 := by
  induction consumed using List.reverseRecOn with
  | nil => simp [columnOf]
  | append_singleton consumed b ih =>
      rw [columnOf, List.rtakeWhile_concat, List.getLast?_concat]
      by_cases hb : b = 10
      · simp [hb]
      · simp [hb]

/-- Behind a NUL there is no newline if the string has all of them. -/
theorem count_read_le (yytext : List UInt8) :
    (CString.read yytext).bytes.count 10 ≤ yytext.count 10 :=
  (List.takeWhile_prefix _).sublist.count_le 10

theorem count_read_of_nul_notMem {yytext : List UInt8} (h : 0 ∉ yytext) :
    (CString.read yytext).bytes.count 10 = yytext.count 10 := by
  rw [show CString.read yytext = ⟨yytext, h⟩ from CString.read_bytes ⟨yytext, h⟩]

theorem nul_notMem_of_count_read {yytext : List UInt8} (hlast : yytext.getLast? = some 10)
    (hcount : (CString.read yytext).bytes.count 10 = yytext.count 10) : 0 ∉ yytext := by
  intro hmem
  obtain ⟨before, behind, rfl, hbefore⟩ := List.eq_append_cons_of_mem hmem
  have hread : (CString.read (before ++ 0 :: behind)).bytes = before :=
    CString.takeWhile_append_nul hbefore behind
  rw [hread, List.count_append] at hcount
  have hnone : 10 ∉ 0 :: behind := List.count_eq_zero.mp (by omega)
  rw [List.getLast?_append_of_ne_nil _ (List.cons_ne_nil 0 behind)] at hlast
  exact hnone (List.mem_of_getLast? hlast)

/-! ## What an event does to the numbers -/

/-- The numbers that the file keeps are those of what has been read. -/
def Exact (f : OpenFile) : Prop :=
  f.file.line = lineOf f.consumed ∧ f.file.column = columnOf f.consumed

theorem exact_lexeme {ptr : FileT} {consumed yytext : List UInt8} (h : Exact ⟨ptr, consumed⟩)
    (hcounts : CountsNewlines yytext) (hne : yytext ≠ []) (buffer : List UInt8) :
    Exact ⟨updateNumbers yytext { ptr with buffer := buffer }, consumed ++ yytext⟩ := by
  obtain ⟨hline, hcolumn⟩ := h
  simp only at hline hcolumn
  rw [Exact]
  simp only
  rcases hcounts with hnone | ⟨hlast, hnul⟩
  · have hzero : yytext.count 10 = 0 := List.count_eq_zero.mpr hnone
    have hread : (CString.read yytext).bytes.count 10 = 0 := by
      have hle := count_read_le yytext
      omega
    rw [updateNumbers, hread, if_neg (by decide), lineOf_append, columnOf_append _ hnone, hline,
      hcolumn, hzero]
    exact ⟨rfl, rfl⟩
  · have hpos : yytext.count 10 ≠ 0 := by
      rw [Ne, List.count_eq_zero, not_not]
      exact List.mem_of_getLast? hlast
    have hcolumn' : columnOf (consumed ++ yytext) = 1 := by
      rw [columnOf_eq_one, List.getLast?_append_of_ne_nil _ hne]
      exact Or.inr hlast
    rw [updateNumbers, count_read_of_nul_notMem hnul, if_pos hpos, lineOf_append, hcolumn', hline]
    exact ⟨rfl, rfl⟩

theorem exact_step {stack stack' : List OpenFile} {e : ScanEvent} (h : ∀ f ∈ stack, Exact f)
    (hstep : e.step stack = some stack') (hcounts : ∀ yytext, e = .lexeme yytext →
      CountsNewlines yytext) : ∀ f ∈ stack', Exact f := by
  cases e with
  | lexeme yytext =>
      cases stack with
      | nil => cases hstep
      | cons f below =>
          obtain ⟨ptr, consumed⟩ := f
          simp only [ScanEvent.step] at hstep
          split at hstep
          · next hfront =>
              obtain rfl := Option.some.inj hstep
              rw [List.forall_mem_cons] at h ⊢
              exact ⟨exact_lexeme h.1 (hcounts yytext rfl) hfront.1 _, h.2⟩
          · cases hstep
  | openFile fn text =>
      obtain rfl := Option.some.inj hstep
      rw [List.forall_mem_cons]
      exact ⟨⟨rfl, rfl⟩, h⟩
  | endOfFile =>
      cases stack with
      | nil => cases hstep
      | cons f below =>
          obtain ⟨ptr, consumed⟩ := f
          simp only [ScanEvent.step] at hstep
          split at hstep
          · obtain rfl := Option.some.inj hstep
            exact (List.forall_mem_cons.mp h).2
          · cases hstep

theorem toInt_lt (n : ℤ) : toInt n < 2 ^ 31 := by
  rw [toInt]
  have hlt := Int.bmod_lt (x := n) (m := 2 ^ 32) (by decide)
  omega

/-- A number that was never larger and reads right is right. -/
theorem eq_of_toInt_eq {number n : ℕ} (h : toInt number = n) (hle : number ≤ n) : number = n := by
  have hlt := toInt_lt number
  have heq : toInt number = number := toInt_of_lt (by omega) (by omega)
  omega

theorem Exact.positionRight {stack : List OpenFile} (h : ∀ f ∈ stack, Exact f)
    (hfit : ∀ f ∈ stack.head?, lineOf f.consumed < 2 ^ 31 ∧ columnOf f.consumed < 2 ^ 31) :
    PositionRight stack := by
  cases stack with
  | nil =>
      intro f hf
      cases hf
  | cons f below =>
      rintro g hg
      obtain rfl : f = g := Option.some.inj hg
      obtain ⟨hline, hcolumn⟩ := h f List.mem_cons_self
      obtain ⟨hfitline, hfitcolumn⟩ := hfit f rfl
      simp only [getLineNo, getColNo, getFileBuffer, List.map_cons, List.head?_cons, hline,
        hcolumn]
      exact ⟨toInt_of_lt (by omega) (by omega), toInt_of_lt (by omega) (by omega)⟩

/-- The lexeme behind which the position is right again counts its newlines. -/
theorem countsNewlines_of_positionRight {stack stack' : List OpenFile} {yytext : List UInt8}
    (h : ∀ f ∈ stack, Exact f) (hstep : (ScanEvent.lexeme yytext).step stack = some stack')
    (hright : PositionRight stack') : CountsNewlines yytext := by
  cases stack with
  | nil => cases hstep
  | cons f below =>
      obtain ⟨ptr, consumed⟩ := f
      obtain ⟨hline, hcolumn⟩ := (List.forall_mem_cons.mp h).1
      simp only at hline hcolumn
      simp only [ScanEvent.step] at hstep
      split at hstep
      · next hfront =>
          obtain rfl := Option.some.inj hstep
          have hle := count_read_le yytext
          obtain ⟨hline', hcolumn'⟩ := hright _ rfl
          simp only [getLineNo, getColNo, getFileBuffer, List.map_cons, List.head?_cons,
            lineOf_append] at hline' hcolumn'
          by_cases hread : (CString.read yytext).bytes.count 10 = 0
          · left
            rw [updateNumbers, hread, if_neg (by decide)] at hline'
            simp only [hline] at hline'
            have hzero := eq_of_toInt_eq hline' (Nat.le_add_right _ _)
            exact List.count_eq_zero.mp (by omega)
          · right
            rw [updateNumbers, if_pos hread] at hline' hcolumn'
            simp only [hline] at hline' hcolumn'
            have hcount := eq_of_toInt_eq hline' (Nat.add_le_add_left hle _)
            have hone : columnOf (consumed ++ yytext) = 1 := by
              have htoInt : toInt ((1 : ℕ) : ℤ) = 1 := by decide
              omega
            have hlast : yytext.getLast? = some 10 := by
              rcases columnOf_eq_one.mp hone with hnil | hlast
              · exact absurd (List.append_eq_nil_iff.mp hnil).2 hfront.1
              · rwa [List.getLast?_append_of_ne_nil _ hfront.1] at hlast
            exact ⟨hlast, nul_notMem_of_count_read hlast (Nat.add_left_cancel hcount)⟩
      · cases hstep

/-! ## Whole runs -/

theorem isRun_filesAfter : IsRun (fun events stack => filesAfter events = some stack)
    fun stack e stack' => e.step stack = some stack' where
  concat := by
    intro events e stack'
    rw [filesAfter_concat]
    exact Option.bind_eq_some_iff

theorem isSome_filesAfter {events pre : List ScanEvent} (hrun : (filesAfter events).isSome)
    (hpre : pre <+: events) : (filesAfter pre).isSome := by
  obtain ⟨rest, rfl⟩ := hpre
  rw [filesAfter, List.foldlM_append] at hrun
  cases hmid : filesAfter pre with
  | some stack => rfl
  | none =>
      rw [← filesAfter, hmid] at hrun
      cases hrun

theorem exact_filesAfter {events : List ScanEvent} (hcounts : ∀ yytext,
    ScanEvent.lexeme yytext ∈ events → CountsNewlines yytext) {stack : List OpenFile}
    (h : filesAfter events = some stack) : ∀ f ∈ stack, Exact f := by
  refine isRun_filesAfter.invariant (I := fun _ stack => ∀ f ∈ stack, Exact f) ?_ ?_ h
  · rintro stack ⟨⟩
    exact List.forall_mem_nil _
  · intro pre e mid stack hpre _ hexact hstep
    apply exact_step hexact hstep
    rintro yytext rfl
    exact hcounts yytext (hpre.subset (List.mem_append_right _ (List.mem_singleton_self _)))

theorem PositionsRight.countsNewlines {events pre : List ScanEvent}
    (h : PositionsRight events) (hrun : (filesAfter events).isSome) (hpre : pre <+: events) :
    ∀ yytext, ScanEvent.lexeme yytext ∈ pre → CountsNewlines yytext := by
  induction pre using List.reverseRecOn with
  | nil =>
      intro yytext hy
      cases hy
  | append_singleton pre e ih =>
      have hcounts := ih ((List.prefix_append _ _).trans hpre)
      intro yytext hy
      rcases List.mem_append.mp hy with hpast | hlast
      · exact hcounts yytext hpast
      · obtain rfl := List.mem_singleton.mp hlast
        obtain ⟨stack', hstack'⟩ := Option.isSome_iff_exists.mp (isSome_filesAfter hrun hpre)
        have hright := h _ hpre stack' hstack'
        rw [filesAfter_concat] at hstack'
        obtain ⟨stack, hstack, hstep⟩ := Option.bind_eq_some_iff.mp hstack'
        exact countsNewlines_of_positionRight (exact_filesAfter hcounts hstack) hstep hright

theorem PositionsRight.positionsFit {events : List ScanEvent} (h : PositionsRight events) :
    PositionsFit events := by
  intro pre hpre stack hstack f hf
  obtain ⟨hline, hcolumn⟩ := h pre hpre stack hstack f hf
  have hlt : ∀ {number : ℤ} {n : ℕ}, toInt number = n → n < 2 ^ 31 := by
    intro number n heq
    have hint := toInt_lt number
    omega
  refine ⟨?_, ?_⟩
  · cases hbuf : getFileBuffer (stack.map OpenFile.file) with
    | none =>
        rw [getLineNo, hbuf] at hline
        simp only at hline
        omega
    | some ptr =>
        rw [getLineNo, hbuf] at hline
        exact hlt hline
  · cases hbuf : getFileBuffer (stack.map OpenFile.file) with
    | none =>
        rw [getColNo, hbuf] at hcolumn
        simp only at hcolumn
        omega
    | some ptr =>
        rw [getColNo, hbuf] at hcolumn
        exact hlt hcolumn

/-- The line and the column are right all the time exactly when every lexeme with a newline
ends in one and has no NUL, and an `int` can hold the numbers. -/
theorem positionsRight_iff {events : List ScanEvent} (hrun : (filesAfter events).isSome) :
    PositionsRight events ↔
      (∀ yytext, ScanEvent.lexeme yytext ∈ events → CountsNewlines yytext) ∧
        PositionsFit events := by
  constructor
  · intro h
    exact ⟨h.countsNewlines hrun List.prefix_rfl, h.positionsFit⟩
  · rintro ⟨hcounts, hfit⟩ pre hpre stack hstack
    have hexact := exact_filesAfter (fun yytext hy => hcounts yytext (hpre.subset hy)) hstack
    exact Exact.positionRight hexact (hfit pre hpre stack hstack)

theorem zero_not_mem_main : (0 : UInt8) ∉ [109] := by decide

/-- An instruction and the newline behind it. -/
def nopEvents : List ScanEvent :=
  [.openFile ⟨[109], zero_not_mem_main⟩ [110, 111, 112, 10], .lexeme [110, 111, 112],
    .lexeme [10]]

theorem positionsRight_nop : PositionsRight nopEvents ↔
    (∀ yytext, ScanEvent.lexeme yytext ∈ nopEvents → CountsNewlines yytext) ∧
      PositionsFit nopEvents :=
  positionsRight_iff (by decide)

/-- Behind a newline and a blank the column is two, and `get_col_no` returns one. -/
theorem not_positionsRight_indented :
    ¬ ∀ events, (filesAfter events).isSome → PositionsRight events := by
  intro hall
  have hright := hall [.openFile ⟨[109], zero_not_mem_main⟩ [10, 32, 120], .lexeme [10, 32]]
    (by decide)
  have hcolumn := (hright _ List.prefix_rfl _ rfl _ rfl).2
  exact absurd hcolumn (by decide)

/-! ## The lexemes of the scanner -/

example : Scanner.lexeme .INITIAL 10 [32, 120] = (1, .ignore) := by decide

variable {fs : FileSystem} {strtof : CString → UInt32}

theorem createFile_numbers {name ext : CString} {ptr : FileT}
    (h : createFile fs name ext = .ok ptr) : ∃ fn text, ptr = ⟨fn, 1, 1, text⟩ := by
  obtain ⟨fn, -, hopen⟩ := bind_eq_ok.mp h
  split at hopen
  · cases hopen
  · next text htext => exact ⟨fn, text, (Except.ok.inj hopen).symm⟩

/-- An `include` that is completed is an event of its own. -/
theorem exists_events_of_reduceInclude {includeSeen : Bool} {t : Token}
    (stack : List OpenFile) {fileStack : List FileT}
    (h : reduceInclude fs includeSeen t (stack.map OpenFile.file) = .ok fileStack) :
    ∃ (events : List ScanEvent) (stack' : List OpenFile),
      events.foldlM ScanEvent.step stack = some stack' ∧
        stack'.map OpenFile.file = fileStack := by
  unfold reduceInclude at h
  split at h
  · next strg =>
      rw [openFile] at h
      obtain ⟨ptr, hptr, hpush⟩ := bind_eq_ok.mp h
      obtain rfl := Except.ok.inj hpush
      obtain ⟨fn, text, rfl⟩ := createFile_numbers hptr
      exact ⟨[.openFile fn text], _, rfl, rfl⟩
  · obtain rfl := Except.ok.inj h
    exact ⟨[], stack, rfl, rfl⟩

/-- What is read as a lexeme is the front of the buffer. -/
theorem step_lexeme (strtof : CString → UInt32) (s : ScannerState) (f : OpenFile)
    (below : List OpenFile) {b : UInt8} {input : List UInt8} (h : f.file.buffer = b :: input) :
    (ScanEvent.lexeme (Scanner.yytext s.start b input)).step (f :: below) =
      some (⟨updateNumbers (Scanner.yytext s.start b input)
          { f.file with buffer := ((Scanner.lexer strtof).step s b input).2.2 },
        f.consumed ++ Scanner.yytext s.start b input⟩ :: below) := by
  have hsplit : b :: input = Scanner.yytext s.start b input ++
      ((Scanner.lexer strtof).step s b input).2.2 :=
    congrArg (b :: ·) (List.take_append_drop _ input).symm
  have hfront : Scanner.yytext s.start b input ≠ [] ∧
      Scanner.yytext s.start b input <+: f.file.buffer := by
    refine ⟨List.cons_ne_nil b _, ?_⟩
    rw [h, hsplit]
    exact List.prefix_append _ _
  have hdrop : f.file.buffer.drop (Scanner.yytext s.start b input).length =
      ((Scanner.lexer strtof).step s b input).2.2 := by
    rw [h]
    conv_lhs => rw [hsplit]
    exact List.drop_left
  simp only [ScanEvent.step, if_pos hfront, hdrop]

/-- Whatever the scanner does to the file stack, events do to it. -/
theorem exists_events_of_step {c c' : InputState} {t : Option Token} {stack : List OpenFile}
    (h : step fs strtof c = some (t, c')) (hstack : stack.map OpenFile.file = c.fileStack) :
    ∃ (events : List ScanEvent) (stack' : List OpenFile),
      events.foldlM ScanEvent.step stack = some stack' ∧
        stack'.map OpenFile.file = c'.fileStack := by
  rcases c with ⟨scanner, fileStack, includeSeen⟩
  simp only at hstack
  subst hstack
  cases stack with
  | nil => cases h
  | cons f below =>
      cases hbuffer : f.file.buffer with
      | nil =>
          simp only [step, getFileBuffer, List.map_cons, List.head?_cons, hbuffer] at h
          cases h
          refine ⟨[.endOfFile], below, ?_, rfl⟩
          simp only [List.foldlM_cons, List.foldlM_nil, ScanEvent.step, if_pos hbuffer]
          rfl
      | cons b input =>
          have hread := step_lexeme strtof scanner f below hbuffer
          rcases hlexeme : (Scanner.lexer strtof).step scanner b input with ⟨scanner', token, rest⟩
          rw [hlexeme] at hread
          simp only [step, getFileBuffer, List.map_cons, List.head?_cons, List.tail_cons, hbuffer,
            hlexeme] at h
          generalize Scanner.yytext scanner.start b input = yytext at h hread
          cases token with
          | none =>
              cases h
              refine ⟨[.lexeme yytext], ⟨updateNumbers yytext { f.file with buffer := rest },
                f.consumed ++ yytext⟩ :: below, ?_, rfl⟩
              simp only [List.foldlM_cons, List.foldlM_nil, hread]
              rfl
          | some t =>
              simp only at h
              split at h
              · next fileStack hreduce =>
                  cases h
                  obtain ⟨events, stack', hevents, hfiles⟩ := exists_events_of_reduceInclude
                    (⟨updateNumbers yytext { f.file with buffer := rest },
                      f.consumed ++ yytext⟩ :: below) hreduce
                  refine ⟨.lexeme yytext :: events, stack', ?_, hfiles⟩
                  rw [List.foldlM_cons, hread]
                  exact hevents
              · cases h

theorem exists_events_of_reaches {c c' : InputState} {ts : List Token} (stack : List OpenFile)
    (h : Reaches fs strtof c ts c') (hstack : stack.map OpenFile.file = c.fileStack) :
    ∃ (events : List ScanEvent) (stack' : List OpenFile),
      events.foldlM ScanEvent.step stack = some stack' ∧
        stack'.map OpenFile.file = c'.fileStack := by
  induction h generalizing stack with
  | refl c => exact ⟨[], stack, rfl, hstack⟩
  | head hstep hrest ih =>
      obtain ⟨events, mid, hevents, hmid⟩ := exists_events_of_step hstep hstack
      obtain ⟨events', stack', hevents', hstack'⟩ := ih mid hmid
      refine ⟨events ++ events', stack', ?_, hstack'⟩
      rw [List.foldlM_append, hevents]
      exact hevents'

/-- Every state of the scanner is that of a source cut into lexemes. -/
theorem exists_filesAfter_of_reaches {fn : CString} {text : List UInt8} {ts : List Token}
    {c : InputState} (h : Reaches fs strtof (start ⟨fn, 1, 1, text⟩) ts c) :
    ∃ events stack, filesAfter (.openFile fn text :: events) = some stack ∧
      stack.map OpenFile.file = c.fileStack := by
  obtain ⟨events, stack, hevents, hstack⟩ :=
    exists_events_of_reaches [⟨⟨fn, 1, 1, text⟩, []⟩] h rfl
  refine ⟨events, stack, ?_, hstack⟩
  rw [filesAfter, List.foldlM_cons]
  exact hevents

end SimpleVm.FileIo
