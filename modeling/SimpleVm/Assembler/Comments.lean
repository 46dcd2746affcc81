import SimpleVm.Assembler.Lexemes

/-!
# Comments in the gaps between lexemes

What stands in front of a gap is cut in the same way whether or not a comment
is put into the gap. A comment ends at the first end of its own kind, whatever
else it contains.
-/

namespace SimpleVm.Scanner

variable {strtof : CString → UInt32}

inductive Comment : List UInt8 → Prop
  | block (c : List UInt8) (h : ¬ [42, 47] <:+: c) : Comment (47 :: 42 :: (c ++ [42, 47]))
  | line (c : List UInt8) (h : 10 ∉ c) : Comment (47 :: 47 :: (c ++ [10]))

/-! ## The two modes -/

theorem lexeme_line {b : UInt8} (hb : b ≠ 10) (input : List UInt8) :
    lexeme .LCOMMENT b input = (0, .ignore) := by
  apply lexeme_of_firstLongest
  by_cases hreturn : b = 13
  · subst hreturn
    exact firstLongest_stop rfl fun _ _ => rfl
  · have hrules : rulesAfter b (rules .LCOMMENT) = [⟨.empty, .ignore⟩] := by
      simp [rules, rulesAfter, any, oneOf, Regex.deriv, hb, hreturn]
    rw [hrules]
    exact firstLongest_stop rfl fun _ _ => rfl

/-- One byte of a block comment, which is not the first one of its end. -/
theorem lexeme_block {b : UInt8} {input : List UInt8} (h : ¬ [42, 47] <+: b :: input)
    (hne : input ≠ []) : lexeme .BCOMMENT b input = (0, .ignore) := by
  obtain ⟨c, input, rfl⟩ := List.exists_cons_of_ne_nil hne
  apply lexeme_of_firstLongest
  by_cases hstar : b = 42
  · subst hstar
    have hc : c ≠ 47 := by
      rintro rfl
      exact h ⟨input, rfl⟩
    have hwait : rulesAfter 42 (rules .BCOMMENT) =
        [⟨.empty, .ignore⟩, ⟨.seq (byte 47) .empty, .begin .INITIAL⟩] := rfl
    rw [hwait]
    apply firstLongest_stop rfl
    intro x hx
    obtain rfl := Option.some.inj hx
    simp [rulesAfter, byte, Regex.deriv, Regex.nullable, Regex.seqNever, fold_ne rfl rfl hc]
  by_cases hline : b = 10 ∨ b = 13
  · rcases hline with rfl | rfl
    · exact firstLongest_stop rfl fun _ _ => rfl
    · exact firstLongest_stop rfl fun _ _ => rfl
  · rw [not_or] at hline
    have hrules : rulesAfter b (rules .BCOMMENT) = [⟨.empty, .ignore⟩] := by
      have hword : word "*/" = .seq (byte 42) (.seq (byte 47) .empty) := rfl
      simp [rules, rulesAfter, any, oneOf, hword, byte, Regex.deriv, Regex.nullable,
        Regex.seqNever, hline.1, hline.2, fold_ne rfl rfl hstar]
    rw [hrules]
    exact firstLongest_stop rfl fun _ _ => rfl

theorem runs_ignore {start : StartCondition} {b : UInt8} {input : List UInt8}
    {strbuf rest : List UInt8} {s : ScannerState} (h : lexeme start b input = (0, .ignore))
    (hrest : (lexer strtof).Runs ⟨start, strbuf⟩ input [] s rest) :
    (lexer strtof).Runs ⟨start, strbuf⟩ (b :: input) [] s rest := by
  have hstep : (lexer strtof).step ⟨start, strbuf⟩ b input = (⟨start, strbuf⟩, none, input) := by
    rw [lexer_step h]
    rfl
  exact .head (t := none) hstep hrest

theorem runs_begin {start next : StartCondition} {b : UInt8} {w strbuf : List UInt8}
    (hsettled : ∀ rule ∈ rules start, (rule.pattern.after (b :: w)).isSettled)
    (h : firstLongest (rules start) (b :: w) = some (w.length + 1, .begin next))
    (rest : List UInt8) :
    (lexer strtof).Runs ⟨start, strbuf⟩ (b :: w ++ rest) [] ⟨next, strbuf⟩ rest := by
  have hstep : (lexer strtof).step ⟨start, strbuf⟩ b (w ++ rest) =
      (⟨next, strbuf⟩, none, rest) := by
    rw [lexer_step (lexeme_append hsettled h rest), List.drop_left]
    rfl
  exact .head (t := none) hstep (.refl _ _)

theorem runs_line {c : List UInt8} (h : 10 ∉ c) (strbuf rest : List UInt8) :
    (lexer strtof).Runs ⟨.LCOMMENT, strbuf⟩ (c ++ [10] ++ rest) [] ⟨.INITIAL, strbuf⟩ rest := by
  induction c with
  | nil => exact runs_begin (by decide) (by decide) rest
  | cons b c ih =>
      rw [List.mem_cons, not_or] at h
      exact runs_ignore (lexeme_line (Ne.symm h.1) _) (ih h.2)

theorem runs_block {c : List UInt8} (h : ¬ [42, 47] <:+: c) (strbuf rest : List UInt8) :
    (lexer strtof).Runs ⟨.BCOMMENT, strbuf⟩ (c ++ [42, 47] ++ rest) [] ⟨.INITIAL, strbuf⟩
      rest := by
  induction c with
  | nil => exact runs_begin (by decide) (by decide) rest
  | cons b c ih =>
      have hend : ¬ [42, 47] <+: b :: (c ++ [42, 47] ++ rest) := by
        intro hprefix
        cases c with
        | nil =>
            simp at hprefix
        | cons d c =>
            obtain ⟨rfl, rfl⟩ : 42 = b ∧ 47 = d := by simpa using hprefix
            exact h ⟨[], c, rfl⟩
      have hrest : ¬ [42, 47] <:+: c := by
        intro hinside
        exact h (hinside.trans (List.infix_cons List.infix_rfl))
      exact runs_ignore (lexeme_block hend (by simp)) (ih hrest)

theorem Comment.runs {cmt : List UInt8} (h : Comment cmt) (strbuf rest : List UInt8) :
    (lexer strtof).Runs ⟨.INITIAL, strbuf⟩ (cmt ++ rest) [] ⟨.INITIAL, strbuf⟩ rest := by
  cases h with
  | block c hc =>
      exact (runs_begin (w := [42]) (by decide +kernel) (by decide +kernel) _).trans
        (runs_block hc strbuf rest)
  | line c hc =>
      exact (runs_begin (w := [47]) (by decide +kernel) (by decide +kernel) _).trans
        (runs_line hc strbuf rest)

/-! ## Putting a comment into a gap -/

theorem suffix_of_runs {s s' : ScannerState} {input rest : List UInt8} {ts : List Token}
    (h : (lexer strtof).Runs s input ts s' rest) : rest <:+ input := by
  induction h with
  | refl s input => exact List.suffix_rfl
  | @head s c input s' t rest ts last left hstep _ ih =>
      have hdrop : input.drop (lexeme s.start c input).1 = rest := congrArg (fun r => r.2.2) hstep
      rw [← hdrop] at ih
      exact ih.trans ((List.drop_suffix _ _).trans (List.suffix_cons c input))

/-- The lexemes in front of a gap are the same when a slash follows the gap. -/
theorem runs_congr {s s' : ScannerState} {text g y : List UInt8} {ts : List Token} (hg : g ≠ [])
    (h : (lexer strtof).Runs s (text ++ (g ++ y)) ts s' (g ++ y)) (z : List UInt8) :
    (lexer strtof).Runs s (text ++ (g ++ 47 :: z)) ts s' (g ++ 47 :: z) := by
  generalize hinput : text ++ (g ++ y) = input at h
  generalize hleft : g ++ y = left at h
  induction h generalizing text with
  | refl s input =>
      subst hleft
      obtain rfl : text = [] := by simpa using hinput
      exact .refl _ _
  | @head s c input s₁ t rest ts last left hstep hrest ih =>
      subst hleft
      generalize hlex : lexeme s.start c input = lex at *
      obtain ⟨n, action⟩ := lex
      rw [lexer_step hlex] at hstep
      obtain ⟨rfl, rfl, rfl⟩ : _ = s₁ ∧ _ = t ∧ input.drop n = rest := by simpa using hstep
      have hlen := (suffix_of_runs hrest).length_le
      have hpos := List.length_pos_of_ne_nil hg
      rw [List.length_drop, List.length_append] at hlen
      cases text with
      | nil =>
          have htotal := congrArg List.length hinput
          simp only [List.nil_append, List.length_append, List.length_cons] at htotal
          omega
      | cons d w =>
          obtain ⟨rfl, htail⟩ : d = c ∧ w ++ (g ++ y) = input := by simpa using hinput
          subst htail
          have hn : n ≤ w.length := by
            rw [List.length_append, List.length_append] at hlen
            omega
          have hshort : (lexeme s.start d (w ++ (g ++ y))).1 ≤ w.length := by
            rw [hlex]
            exact hn
          have hnew : (lexer strtof).step s d (w ++ (g ++ 47 :: z)) =
              ((perform strtof (d :: w.take n) s action).1,
                (perform strtof (d :: w.take n) s action).2, w.drop n ++ (g ++ 47 :: z)) := by
            rw [lexer_step ((lexeme_congr hg hshort z).trans hlex),
              List.take_append_of_le_length hn, List.drop_append_of_le_length hn]
          rw [List.take_append_of_le_length hn] at ih ⊢
          exact .head hnew (ih (List.drop_append_of_le_length hn).symm rfl)

/-- The tokens are those of the text without the comment, and the scanner is
back where it was before the gap. -/
theorem comment_transparent (text g g' post : List UInt8) {cmt strbuf : List UInt8}
    {ts : List Token} (hg : Gap g) (hg' : Gap g') (hcmt : Comment cmt)
    (hgap : (lexer strtof).Runs initial (text ++ (g ++ (g' ++ post))) ts ⟨.INITIAL, strbuf⟩
      (g ++ (g' ++ post))) :
    tokens strtof (text ++ (g ++ (cmt ++ (g' ++ post)))) =
        tokens strtof (text ++ (g ++ (g' ++ post))) ∧
      (lexer strtof).Runs initial (text ++ (g ++ (cmt ++ (g' ++ post)))) ts ⟨.INITIAL, strbuf⟩
        (g' ++ post) := by
  obtain ⟨z, hz⟩ : ∃ z, cmt ++ (g' ++ post) = 47 :: z := by
    cases hcmt with
    | block c hc => exact ⟨_, rfl⟩
    | line c hc => exact ⟨_, rfl⟩
  have hfront : (lexer strtof).Runs initial (text ++ (g ++ (cmt ++ (g' ++ post)))) ts
      ⟨.INITIAL, strbuf⟩ (g ++ (cmt ++ (g' ++ post))) := by
    rw [hz]
    exact runs_congr hg.1 hgap z
  have hopen := hg.runs strtof strbuf (cmt ++ (g' ++ post))
  have hslash : (cmt ++ (g' ++ post)).dropWhile isSpace = cmt ++ (g' ++ post) := by
    rw [hz]
    rfl
  rw [hslash] at hopen
  have hall := hfront.trans (hopen.trans (hcmt.runs strbuf (g' ++ post)))
  rw [List.append_nil, List.append_nil] at hall
  refine ⟨?_, hall⟩
  have hold := hg.scan_append strtof hg' strbuf post
  rw [List.append_assoc] at hold
  rw [tokens, tokens, hall.scan, hgap.scan, hold]

/-- The text `5 /*x*/ 6`. -/
theorem comment_transparent_five_six :
    tokens (fun _ => 0) [53, 32, 47, 42, 120, 42, 47, 32, 54] =
        tokens (fun _ => 0) [53, 32, 32, 54] ∧
      (lexer fun _ => 0).Runs initial [53, 32, 47, 42, 120, 42, 47, 32, 54] [.intLiteral 5]
        ⟨.INITIAL, []⟩ [32, 54] := by
  have hstep : (lexer fun _ => 0).step initial 53 [32, 32, 54] =
      (⟨.INITIAL, []⟩, some (.intLiteral 5), [32, 32, 54]) := by decide
  have hgap : ∀ b ∈ [(32 : UInt8)], isSpace b = true := List.forall_mem_singleton.mpr rfl
  have hgaps : Gap [32] := ⟨by decide, hgap⟩
  have hcmt : Comment [47, 42, 120, 42, 47] := .block [120] (by decide)
  have hopen : (lexer fun _ => 0).Runs initial ([53] ++ ([32] ++ ([32] ++ [54])))
      [.intLiteral 5] ⟨.INITIAL, []⟩ ([32] ++ ([32] ++ [54])) := .head hstep (.refl _ _)
  simpa only [List.cons_append, List.nil_append] using
    comment_transparent [53] [32] [32] [54] hgaps hgaps hcmt hopen

end SimpleVm.Scanner
