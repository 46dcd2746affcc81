import SimpleVm.Assembler.FileIo
import SimpleVm.Lib.Inclusion

/-!
# Include files

Between two strings the content of `strbuf` has no effect, so the scanner
without it takes the same lexemes. Over that scanner the file stack is a
stack of inputs, which is how the file stack comes to deliver expansions.
-/

namespace SimpleVm

namespace Scanner

/-! ## The scanner without an old `strbuf` -/

def forget (s : ScannerState) : ScannerState :=
  match s.start with
  | .DQUOTE => s
  | .SQUOTE => s
  | start => ⟨start, []⟩

@[simp] theorem forget_start (s : ScannerState) : (forget s).start = s.start := by
  rcases s with ⟨start, strbuf⟩
  cases start <;> rfl

theorem forget_eq_initial {s : ScannerState} : forget s = initial ↔ s.start = .INITIAL := by
  rcases s with ⟨start, strbuf⟩
  cases start <;> simp [forget, initial]

/-- The actions that look at `strbuf`, or leave it as it is to a string. -/
def Action.usesStrbuf : Action → Bool
  | .begin .DQUOTE => true
  | .begin .SQUOTE => true
  | .closeQuote => true
  | .appendChar _ => true
  | .appendSecond => true
  | .appendHex => true
  | .appendText => true
  | _ => false

/-- The string literal that an action returns as it stands in the rules. -/
def Action.literal : Action → Option CString
  | .ret (.strgLiteral strg) => some strg
  | _ => none

theorem usesStrbuf_of_mem_rules {start : StartCondition} (hd : start ≠ .DQUOTE)
    (hs : start ≠ .SQUOTE) : ∀ rule ∈ rules start, rule.action.usesStrbuf = false := by
  cases start with
  | INITIAL => decide
  | LCOMMENT => decide
  | BCOMMENT => decide
  | DQUOTE => exact absurd rfl hd
  | SQUOTE => exact absurd rfl hs

theorem literal_of_mem_rules (start : StartCondition) :
    ∀ rule ∈ rules start, rule.action.literal = none := by
  cases start <;> decide

theorem lexeme_action {p : Action → Prop} {start : StartCondition} (hecho : p .echo)
    (hrules : ∀ rule ∈ rules start, p rule.action) (c : UInt8) (input : List UInt8) :
    p (lexeme start c input).2 := by
  rw [lexeme]
  split
  · next n action hbest =>
      obtain ⟨rule, hrule, -, rfl⟩ := exists_mem_of_firstLongest hbest
      exact hrules rule hrule
  · exact hecho

theorem perform_forget (strtof : CString → UInt32) (yytext : List UInt8) (s : ScannerState)
    {action : Action} (h : action.usesStrbuf = false) :
    forget (perform strtof yytext (forget s) action).1 =
        forget (perform strtof yytext s action).1 ∧
      (perform strtof yytext (forget s) action).2 = (perform strtof yytext s action).2 := by
  rcases s with ⟨start, strbuf⟩
  have htwice : forget (forget ⟨start, strbuf⟩) = forget ⟨start, strbuf⟩ := by
    cases start <;> rfl
  cases action with
  | begin start' =>
      cases start' with
      | DQUOTE => cases h
      | SQUOTE => cases h
      | _ => exact ⟨rfl, rfl⟩
  | openQuote start' => exact ⟨rfl, rfl⟩
  | closeQuote => cases h
  | appendChar ch => cases h
  | appendSecond => cases h
  | appendHex => cases h
  | appendText => cases h
  | _ => exact ⟨htwice, rfl⟩

/-- The scanner that drops `strbuf` at the end of a string. -/
def bareLexer (strtof : CString → UInt32) : Lexer UInt8 ScannerState Token where
  step s c input :=
    let (s', t, rest) := (lexer strtof).step s c input
    (forget s', t, rest)
  length_rest_le := (lexer strtof).length_rest_le

theorem bareLexer_step_forget (strtof : CString → UInt32) (s : ScannerState) (c : UInt8)
    (input : List UInt8) :
    (bareLexer strtof).step (forget s) c input =
      (forget ((lexer strtof).step s c input).1, ((lexer strtof).step s c input).2) := by
  by_cases hd : s.start = .DQUOTE
  · have hs : forget s = s := by rw [forget, hd]
    rw [hs]
    rfl
  by_cases hs : s.start = .SQUOTE
  · have hs : forget s = s := by rw [forget, hs]
    rw [hs]
    rfl
  have haction : (lexeme s.start c input).2.usesStrbuf = false :=
    lexeme_action (p := fun action => action.usesStrbuf = false) rfl
      (usesStrbuf_of_mem_rules hd hs) c input
  obtain ⟨hstate, htoken⟩ := perform_forget strtof (yytext s.start c input) s haction
  simp only [bareLexer, lexer, forget_start, hstate, htoken]

def strgLiteral : Token → Option CString
  | .strgLiteral strg => some strg
  | _ => none

/-- Only the end of a string returns a string literal, and it is `INITIAL` then. -/
theorem start_of_strgLiteral {strtof : CString → UInt32} {s : ScannerState} {c : UInt8}
    {input : List UInt8} {t : Token} {strg : CString}
    (ht : ((lexer strtof).step s c input).2.1 = some t) (hstrg : strgLiteral t = some strg) :
    ((lexer strtof).step s c input).1.start = .INITIAL := by
  have hliteral : (lexeme s.start c input).2.literal = none :=
    lexeme_action (p := fun action => action.literal = none) rfl
      (literal_of_mem_rules s.start) c input
  simp only [lexer] at ht ⊢
  generalize (lexeme s.start c input).2 = action at hliteral ht ⊢
  cases action with
  | closeQuote => rfl
  | ret t' =>
      cases ht
      cases t with
      | strgLiteral strg' => cases hliteral
      | _ => cases hstrg
  | intLiteral =>
      cases ht
      cases hstrg
  | uintLiteral =>
      cases ht
      cases hstrg
  | floatLiteral =>
      cases ht
      cases hstrg
  | name =>
      cases ht
      cases hstrg
  | _ => cases ht

end Scanner

namespace FileIo

/-! ## Directives -/

/-- The text of the file that an `include` opens. -/
def sourceText (fs : FileSystem) (name : CString) : Option (List UInt8) :=
  (createFile fs name asmExt).toOption.map FileT.buffer

/-- The `include` directives among the tokens, each file scanned on its own from `INITIAL`. -/
def directives (fs : FileSystem) (strtof : CString → UInt32) : Directives Token CString where
  arms t := t == .keyword .INCLUDE
  name := Scanner.strgLiteral
  body name := (sourceText fs name).map (Scanner.tokens strtof)
  arms_of_name t f h := by
    cases t with
    | strgLiteral strg => rfl
    | _ => cases h

def inclusion (fs : FileSystem) (strtof : CString → UInt32) :
    Inclusion (Scanner.bareLexer strtof) CString where
  initial := Scanner.initial
  arms := (directives fs strtof).arms
  name := Scanner.strgLiteral
  files := sourceText fs
  arms_of_name := (directives fs strtof).arms_of_name
  state_of_name _ _ _ _ _ ht hname :=
    Scanner.forget_eq_initial.mpr (Scanner.start_of_strgLiteral ht hname)

/-- What of the state the tokens to come depend on. -/
def view (c : InputState) : Inclusion.Config UInt8 ScannerState :=
  ⟨Scanner.forget c.scanner, c.includeSeen, c.fileStack.map FileT.buffer⟩

@[simp] theorem updateNumbers_buffer (yytext : List UInt8) (ptr : FileT) :
    (updateNumbers yytext ptr).buffer = ptr.buffer := by
  rw [updateNumbers]
  split <;> rfl

theorem reduceInclude_view (fs : FileSystem) (strtof : CString → UInt32) (includeSeen : Bool)
    (t : Token) (fileStack : List FileT) :
    (reduceInclude fs includeSeen t fileStack).toOption.map (List.map FileT.buffer) =
      (inclusion fs strtof).push includeSeen t (fileStack.map FileT.buffer) := by
  cases includeSeen with
  | false => rfl
  | true =>
      cases t with
      | strgLiteral strg =>
          rw [reduceInclude, openFile]
          have hpush : (inclusion fs strtof).push true (.strgLiteral strg)
              (fileStack.map FileT.buffer) =
                (sourceText fs strg).map fun text => text :: fileStack.map FileT.buffer := rfl
          rw [hpush, sourceText]
          cases createFile fs strg asmExt <;> rfl
      | _ => rfl

theorem step_view (fs : FileSystem) (strtof : CString → UInt32) (c : InputState) :
    (inclusion fs strtof).step (view c) = (step fs strtof c).map (Prod.map id view) := by
  rcases c with ⟨scanner, fileStack, includeSeen⟩
  cases fileStack with
  | nil => rfl
  | cons ptr below =>
      rcases ptr with ⟨name, line, column, buffer⟩
      cases buffer with
      | nil => rfl
      | cons b input =>
          have hlexeme := Scanner.bareLexer_step_forget strtof scanner b input
          rcases hstep : (Scanner.lexer strtof).step scanner b input with ⟨scanner', token, rest⟩
          rw [hstep] at hlexeme
          cases token with
          | none =>
              simp only [Inclusion.step, view, step, getFileBuffer, List.head?_cons, List.map_cons,
                hlexeme, hstep, List.tail_cons, Option.map_some, Prod.map_apply, id_eq,
                updateNumbers_buffer]
          | some t =>
              have hpush := reduceInclude_view fs strtof includeSeen t
                (updateNumbers (Scanner.yytext scanner.start b input) ⟨name, line, column, rest⟩ ::
                  below)
              simp only [List.map_cons, updateNumbers_buffer] at hpush
              simp only [Inclusion.step, view, step, getFileBuffer, List.head?_cons, List.map_cons,
                hlexeme, hstep, List.tail_cons, ← hpush]
              cases reduceInclude fs includeSeen t
                (updateNumbers (Scanner.yytext scanner.start b input) ⟨name, line, column, rest⟩ ::
                  below) with
              | error e => rfl
              | ok fileStack => rfl

theorem Reaches.view {fs : FileSystem} {strtof : CString → UInt32} {c last : InputState}
    {ts : List Token} (h : Reaches fs strtof c ts last) :
    (inclusion fs strtof).Reaches (view c) ts (FileIo.view last) := by
  induction h with
  | refl c => exact .refl _
  | @head c t c' ts last hstep _ ih =>
      have hview := step_view fs strtof c
      rw [hstep] at hview
      exact .head hview ih

theorem exists_reaches_of_view {fs : FileSystem} {strtof : CString → UInt32} {c : InputState}
    {ts : List Token} {last : Inclusion.Config UInt8 ScannerState}
    (h : (inclusion fs strtof).Reaches (view c) ts last) :
    ∃ last', Reaches fs strtof c ts last' ∧ view last' = last := by
  generalize hc : view c = c₀ at h
  induction h generalizing c with
  | refl c₀ => exact ⟨c, .refl c, hc⟩
  | @head c₀ t c₁ ts last hstep _ ih =>
      subst hc
      rw [step_view] at hstep
      obtain ⟨⟨t', c'⟩, hstep', hnext⟩ := Option.map_eq_some_iff.mp hstep
      obtain ⟨rfl, hview⟩ := Prod.mk.inj hnext
      obtain ⟨last', hrun, hlast⟩ := ih hview
      exact ⟨last', .head hstep' hrun, hlast⟩

theorem delivers_iff {fs : FileSystem} {strtof : CString → UInt32} {main : FileT}
    {ts : List Token} :
    Delivers fs strtof main ts ↔ (inclusion fs strtof).Delivers main.buffer ts := by
  constructor
  · rintro ⟨last, hlast, hrun⟩
    refine ⟨view last, ?_, hrun.view⟩
    rw [view, hlast]
    rfl
  · rintro ⟨last, hlast, hrun⟩
    obtain ⟨last', hrun', rfl⟩ := exists_reaches_of_view (c := start main) hrun
    exact ⟨last', List.map_eq_nil_iff.mp hlast, hrun'⟩

theorem Delivers.unique {fs : FileSystem} {strtof : CString → UInt32} {main : FileT}
    {ts ts' : List Token} (h : Delivers fs strtof main ts) (h' : Delivers fs strtof main ts') :
    ts = ts' := (delivers_iff.mp h).unique (delivers_iff.mp h')

/-- What the parser has got at any time, also when it stops at a syntax error,
is the beginning of what is delivered. -/
theorem Reaches.exists_rest {fs : FileSystem} {strtof : CString → UInt32} {main : FileT}
    {c : InputState} {ts ts' : List Token} (h : Reaches fs strtof (start main) ts c)
    (h' : Delivers fs strtof main ts') : ∃ rest, ts' = ts ++ rest := by
  obtain ⟨last, hlast, hrun⟩ := delivers_iff.mp h'
  obtain ⟨rest, -, hts⟩ := h.view.exists_rest hrun hlast
  exact ⟨rest, hts⟩

end FileIo

end SimpleVm
