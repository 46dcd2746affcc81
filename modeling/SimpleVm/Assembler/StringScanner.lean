import SimpleVm.Assembler.Scanner
import SimpleVm.Common.StringRoom

/-!
# The scanner with the block of `strbuf`

The rules are those of the scanner, and the actions call the functions of the
string buffer on the block they really have. A write behind the block ends the
scan.
-/

namespace SimpleVm.Scanner

open StringT

/-- `strbuf` is `NULL` until the first quote. -/
structure BlockState where
  start : StartCondition
  strbuf : Option StringT

/-- The string that `strbuf` points to. -/
def theString : Option StringT → Except Halt StringT
  | none => .error .invalidAccess
  | some strbuf => .ok strbuf

/-- `create_string(NULL)` the first time, and `clear_string` from then on. -/
def freshString (fresh : ℕ → UInt8) : Option StringT → Except Halt StringT
  | none => createString fresh none
  | some strbuf => strbuf.clearString

/-- The bytes of `yytext` are `char`, which is signed. -/
def performBlock (strtof : CString → UInt32) (fresh : ℕ → UInt8) (yytext : List UInt8)
    (s : BlockState) : Action → Except Halt (BlockState × Option Token)
  | .begin start => .ok ({ s with start := start }, none)
  | .openQuote start => do
      let strbuf ← freshString fresh s.strbuf
      .ok (⟨start, some strbuf⟩, none)
  | .closeQuote => do
      let strbuf ← theString s.strbuf
      let strg ← strbuf.copyString fresh
      .ok ({ s with start := .INITIAL }, some (.strgLiteral strg.rawString))
  | .appendChar ch => do
      let strbuf ← theString s.strbuf
      let strbuf ← strbuf.appendStringChar fresh ch
      .ok ({ s with strbuf := some strbuf }, none)
  | .appendSecond => do
      let strbuf ← theString s.strbuf
      let strbuf ← strbuf.appendStringChar fresh (yytext.getD 1 0).toInt8.toInt
      .ok ({ s with strbuf := some strbuf }, none)
  | .appendHex => do
      let strbuf ← theString s.strbuf
      let strbuf ← strbuf.appendStringChar fresh (toInt (strtolDigits 16 (yytext.drop 2)))
      .ok ({ s with strbuf := some strbuf }, none)
  | .appendText => do
      let strbuf ← theString s.strbuf
      let strbuf ← strbuf.appendString fresh (CString.read yytext)
      .ok ({ s with strbuf := some strbuf }, none)
  -- the other actions have nothing to do with `strbuf`
  | action => .ok (s, (perform strtof yytext ⟨s.start, []⟩ action).2)

/-- After a halt nothing is read any more. -/
def blockLexer (strtof : CString → UInt32) (fresh : ℕ → UInt8) :
    Lexer UInt8 (Except Halt BlockState) Token where
  step
    | .error halt, _, _ => (.error halt, none, [])
    | .ok s, c, input =>
        match performBlock strtof fresh (yytext s.start c input) s (lexeme s.start c input).2 with
        | .error halt => (.error halt, none, [])
        | .ok (s', t) => (.ok s', t, input.drop (lexeme s.start c input).1)
  length_rest_le s c input := by
    split
    · exact Nat.zero_le _
    · next s =>
        split
        · exact Nat.zero_le _
        · rw [List.length_drop]
          exact Nat.sub_le _ _

variable {strtof : CString → UInt32} {fresh : ℕ → UInt8}

theorem blockLexer_step_ok {s s' : BlockState} {c : UInt8} {w rest : List UInt8}
    {action : Action} {t : Option Token}
    (h : lexeme s.start c (w ++ rest) = (w.length, action))
    (hrun : performBlock strtof fresh (c :: w) s action = .ok (s', t)) :
    (blockLexer strtof fresh).step (.ok s) c (w ++ rest) = (.ok s', t, rest) := by
  simp only [blockLexer, yytext, h, List.take_left, hrun, List.drop_left]

theorem blockLexer_scan_halt {s : BlockState} {c : UInt8} {w rest : List UInt8}
    {action : Action} {halt : Halt}
    (h : lexeme s.start c (w ++ rest) = (w.length, action))
    (hrun : performBlock strtof fresh (c :: w) s action = .error halt) :
    (blockLexer strtof fresh).scan (.ok s) (c :: (w ++ rest)) = ([], .error halt) := by
  have hstep : (blockLexer strtof fresh).step (.ok s) c (w ++ rest) = (.error halt, none, []) := by
    simp only [blockLexer, yytext, h, List.take_left, hrun]
  rw [Lexer.scan_cons, hstep]
  rfl

/-! ## What a scan leaves in `strbuf` -/

def StrbufSound (s : BlockState) : Prop := ∀ held ∈ s.strbuf, Sound held

theorem sound_freshString {strbuf : Option StringT} {buf : StringT}
    (h : ∀ held ∈ strbuf, Sound held) (hrun : freshString fresh strbuf = .ok buf) :
    Sound buf := by
  cases strbuf with
  | none =>
      obtain rfl := Except.ok.inj hrun
      exact sound_empty
  | some strbuf =>
      obtain ⟨buf', hclear, hcap, -, hheld⟩ := (h strbuf rfl).clearString
      obtain rfl : buf' = buf := Except.ok.inj (hclear.symm.trans hrun)
      exact hheld.sound hcap

theorem theString_eq {strbuf : Option StringT} {buf : StringT}
    (h : theString strbuf = .ok buf) : strbuf = some buf := by
  cases strbuf with
  | none => cases h
  | some strbuf => rw [Except.ok.inj h]

/-- No action leaves `strbuf` other than an allocator gives it. -/
theorem StrbufSound.performBlock {s s' : BlockState} {yytext : List UInt8} {action : Action}
    {t : Option Token} (h : StrbufSound s)
    (hrun : Scanner.performBlock strtof fresh yytext s action = .ok (s', t)) : StrbufSound s' := by
  have hset : ∀ {buf : StringT}, Sound buf → ∀ held ∈ some buf, Sound held := by
    intro buf hbuf held hmem
    rw [Option.mem_some_iff.mp hmem] at hbuf
    exact hbuf
  cases action with
  | openQuote start =>
      obtain ⟨buf, hbuf, hset'⟩ := bind_eq_ok.mp hrun
      cases hset'
      exact hset (sound_freshString h hbuf)
  | closeQuote =>
      obtain ⟨buf, -, hcopy⟩ := bind_eq_ok.mp hrun
      obtain ⟨strg, -, hset'⟩ := bind_eq_ok.mp hcopy
      cases hset'
      exact h
  | appendChar ch =>
      obtain ⟨buf, hbuf, hmore⟩ := bind_eq_ok.mp hrun
      obtain ⟨buf', happend, hset'⟩ := bind_eq_ok.mp hmore
      cases hset'
      exact hset ((h buf (theString_eq hbuf)).of_appendStringChar happend)
  | appendSecond =>
      obtain ⟨buf, hbuf, hmore⟩ := bind_eq_ok.mp hrun
      obtain ⟨buf', happend, hset'⟩ := bind_eq_ok.mp hmore
      cases hset'
      exact hset ((h buf (theString_eq hbuf)).of_appendStringChar happend)
  | appendHex =>
      obtain ⟨buf, hbuf, hmore⟩ := bind_eq_ok.mp hrun
      obtain ⟨buf', happend, hset'⟩ := bind_eq_ok.mp hmore
      cases hset'
      exact hset ((h buf (theString_eq hbuf)).of_appendStringChar happend)
  | appendText =>
      obtain ⟨buf, hbuf, hmore⟩ := bind_eq_ok.mp hrun
      obtain ⟨buf', happend, hset'⟩ := bind_eq_ok.mp hmore
      cases hset'
      exact hset ((h buf (theString_eq hbuf)).of_appendString happend)
  | _ =>
      cases hrun
      exact h

theorem StrbufSound.of_step {s s' : BlockState} {c : UInt8} {input rest : List UInt8}
    {t : Option Token} (h : StrbufSound s)
    (hstep : (blockLexer strtof fresh).step (.ok s) c input = (.ok s', t, rest)) :
    StrbufSound s' := by
  simp only [blockLexer] at hstep
  split at hstep
  · cases hstep
  · next s'' t' hrun =>
      cases hstep
      exact h.performBlock hrun

/-- What holds of every `strbuf` that a scan leaves. -/
theorem StrbufSound.of_runs {s s' : BlockState} {input rest : List UInt8} {ts : List Token}
    (hruns : (blockLexer strtof fresh).Runs (.ok s) input ts (.ok s') rest)
    (h : StrbufSound s) : StrbufSound s' := by
  generalize hstart : (Except.ok s : Except Halt BlockState) = start at hruns
  generalize hlast : (Except.ok s' : Except Halt BlockState) = last at hruns
  induction hruns generalizing s with
  | refl start input =>
      obtain rfl : s' = s := Except.ok.inj (hlast.trans hstart.symm)
      exact h
  | head hstep hrest ih =>
      next start c input mid t rest ts last left =>
        subst hstart
        cases mid with
        | ok mid => exact ih (h.of_step hstep) rfl hlast
        | error halt =>
            -- a scan that has halted does not go on
            have hstuck : ∀ {start : Except Halt BlockState} {input ts last rest},
                (blockLexer strtof fresh).Runs start input ts last rest →
                  start = .error halt → last = .error halt := by
              intro start input ts last rest hruns
              induction hruns with
              | refl start input => exact id
              | head hstep hrest ih =>
                  rintro rfl
                  cases hstep
                  exact ih rfl
            rw [hstuck hrest rfl] at hlast
            cases hlast

end SimpleVm.Scanner
