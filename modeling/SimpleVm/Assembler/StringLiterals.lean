import SimpleVm.Assembler.Lexemes
import SimpleVm.Assembler.StringScanner

/-!
# Double-quoted literals

Between the quotes a character that needs an escape is a lexeme of its own,
and the characters between two of them are one lexeme. The first kind is
appended by itself and writes its terminator behind a block that has one byte
left; the second kind makes room.
-/

namespace SimpleVm.Scanner

open StringT

variable (strtof : CString → UInt32) (fresh : ℕ → UInt8)

/-! ## The text of a literal -/

/-- A quote, a backslash and a newline. -/
def isEscaped (b : UInt8) : Bool := [34, 92, 10].contains b

/-- What stands behind the backslash. -/
def escSecond (b : UInt8) : UInt8 := if b = 10 then 110 else b

def escChar (b : UInt8) : List UInt8 := if isEscaped b then [92, escSecond b] else [b]

def esc (s : List UInt8) : List UInt8 := s.flatMap escChar

def quoted (s : CString) : List UInt8 := 34 :: (esc s.bytes ++ [34])

def isBlank (b : UInt8) : Bool := [32, 9].contains b

/-- The text would go on with the literal in the next line. -/
def BeginsContinuation (rest : List UInt8) : Prop :=
  ∃ before behind indent more, (∀ b ∈ before, isBlank b = true) ∧
    (∀ b ∈ behind, isBlank b = true) ∧ (∀ b ∈ indent, isBlank b = true) ∧
      rest = before ++ 92 :: (behind ++ 10 :: (indent ++ 34 :: more))

/-! ## Lexemes between the quotes -/

theorem mem_escaped {b : UInt8} (hb : isEscaped b = true) : b = 34 ∨ b = 92 ∨ b = 10 := by
  simpa [isEscaped] using hb

/-- The escape of a character is one lexeme, which appends the character. -/
theorem lexeme_escape {b : UInt8} (hb : isEscaped b = true) (buf : StringT)
    (input : List UInt8) :
    ∃ action ch, lexeme .DQUOTE 92 ([escSecond b] ++ input) = ([escSecond b].length, action) ∧
      charOf ch = b ∧
      performBlock strtof fresh [92, escSecond b] ⟨.DQUOTE, some buf⟩ action =
        buf.appendStringChar fresh ch >>= fun buf' => .ok (⟨.DQUOTE, some buf'⟩, none) := by
  rcases mem_escaped hb with rfl | rfl | rfl
  · exact ⟨.appendChar 34, 34, lexeme_append (w := [34]) (by decide) (by decide)
      input, by decide, rfl⟩
  · exact ⟨.appendSecond, 92, lexeme_append (w := [92]) (by decide) (by decide)
      input, by decide, rfl⟩
  · exact ⟨.appendChar 10, 10, lexeme_append (w := [110]) (by decide) (by decide)
      input, by decide, rfl⟩

def plainRules : List (LexRule UInt8 Action) := [⟨.star (noneOf [92, 10, 34]), .appendText⟩]

theorem rulesAfter_plain {c : UInt8} (hc : isEscaped c = false) :
    rulesAfter c (rules .DQUOTE) = plainRules ∧ rulesAfter c plainRules = plainRules := by
  have hne : c ≠ 10 ∧ c ≠ 92 ∧ c ≠ 34 := by
    refine ⟨?_, ?_, ?_⟩ <;> rintro rfl <;> cases hc
  have hclass : (!([92, 10, 34].contains c)) = true := by simp [hne.1, hne.2.1, hne.2.2]
  have hword (x : UInt8) (hx : (fold c == fold x) = false) (s : Regex UInt8) :
      (Regex.seq (byte x) s).deriv c = .never :=
    Regex.deriv_seq_never (by simp [byte, Regex.deriv, hx]) rfl s
  have hline := hword 10 (fold_ne rfl rfl hne.1)
  have hback := hword 92 (fold_ne rfl rfl hne.2.1)
  have hquote := hword 34 (fold_ne rfl rfl hne.2.2)
  -- every other rule begins with a word
  have hpre : rulesAfter c (dquoteRules.take 13) = [] := by
    apply rulesAfter_eq_nil
    simp only [dquoteRules, List.take_succ_cons, List.take_zero, List.forall_mem_cons]
    exact ⟨hline _, hback _, hback _, hback _, hback _, hback _, hback _, hback _, hback _,
      hback _, Regex.deriv_seq_never (hback _) rfl _, Regex.deriv_seq_never (hback _) rfl _,
      Regex.deriv_seq_never (hquote _) rfl _, List.forall_mem_nil _⟩
  have hpost : rulesAfter c (dquoteRules.drop 14) = [] :=
    rulesAfter_eq_nil (List.forall_mem_singleton.mpr (hquote _))
  have hsplit : rules .DQUOTE = dquoteRules.take 13 ++
      (⟨.plus (noneOf [92, 10, 34]), .appendText⟩ :: dquoteRules.drop 14) := rfl
  constructor
  · rw [hsplit, rulesAfter_append, hpre, noneOf,
      rulesAfter_plus_one (fun b => !([92, 10, 34].contains b)) hclass, hpost]
    rfl
  · exact rulesAfter_star_one (fun b => !([92, 10, 34].contains b)) hclass _ []

theorem lexeme_plain {c : UInt8} {w rest : List UInt8} (hc : isEscaped c = false)
    (hw : ∀ b ∈ w, isEscaped b = false) (hrest : ∀ x ∈ rest.head?, isEscaped x = true) :
    lexeme .DQUOTE c (w ++ rest) = (w.length, .appendText) := by
  apply lexeme_of_firstLongest
  rw [(rulesAfter_plain hc).1]
  refine firstLongest_run ?_ rfl (fun b hb => Bool.not_eq_true' _ ▸ hw b hb) ?_
  · intro b hb
    exact (rulesAfter_plain (by simpa using hb)).2
  · intro x hx
    rcases mem_escaped (hrest x hx) with rfl | rfl | rfl
    · rfl
    · rfl
    · rfl

theorem blanks_matches {w : List UInt8} (h : blanks.Matches w) : ∀ b ∈ w, isBlank b = true :=
  Regex.matches_star_one.mp h

/-- A word of one byte that is no letter matches this byte. -/
theorem word_eq {c : UInt8} {w : List UInt8} (hc : c ∈ [92, 10, 34])
    (h : (sequence [byte c]).Matches w) : w = [c] := by
  obtain ⟨u, v, rfl, hu, hv⟩ := Regex.matches_seq.mp h
  obtain rfl := Regex.matches_empty.mp hv
  obtain ⟨b, rfl, hb⟩ := Regex.matches_one.mp hu
  have heq : b = c := by
    simp only [List.mem_cons, List.not_mem_nil, or_false] at hc
    rcases hc with rfl | rfl | rfl <;> exact eq_of_fold rfl rfl hb
  rw [heq]
  rfl

theorem lexeme_close {rest : List UInt8} (hrest : ¬ BeginsContinuation rest) :
    lexeme .DQUOTE 34 rest = (0, .closeQuote) := by
  apply lexeme_of_firstLongest
  have hrules : rulesAfter 34 (rules .DQUOTE) =
      [⟨.seq blanks (sequence [word "\\", blanks, word "\n", blanks, word "\""]), .ignore⟩,
        ⟨.empty, .closeQuote⟩] := rfl
  have hnone : (Regex.seq blanks (sequence [word "\\", blanks, word "\n", blanks,
      word "\""])).longest rest = none := by
    rw [Option.eq_none_iff_forall_ne_some]
    intro n hlong
    apply hrest
    obtain ⟨before, u, hbefore, hblanks, hu⟩ :=
      Regex.matches_seq.mp (Regex.matches_of_longest hlong).2
    obtain ⟨slash, u, rfl, hslash, hu⟩ := Regex.matches_seq.mp hu
    obtain ⟨behind, u, rfl, hbehind, hu⟩ := Regex.matches_seq.mp hu
    obtain ⟨newline, u, rfl, hnewline, hu⟩ := Regex.matches_seq.mp hu
    obtain ⟨indent, u, rfl, hindent, hu⟩ := Regex.matches_seq.mp hu
    obtain ⟨quote, u, rfl, hquote, hu⟩ := Regex.matches_seq.mp hu
    obtain rfl := Regex.matches_empty.mp hu
    refine ⟨before, behind, indent, rest.drop n, blanks_matches hblanks, blanks_matches hbehind,
      blanks_matches hindent, ?_⟩
    have hrest : rest = rest.take n ++ rest.drop n := (List.take_append_drop n rest).symm
    rw [hbefore, word_eq (c := 92) (by decide) hslash, word_eq (c := 10) (by decide) hnewline,
      word_eq (c := 34) (by decide) hquote] at hrest
    simpa using hrest
  have hclose : firstLongest [⟨.empty, Action.closeQuote⟩] rest = some (0, .closeQuote) := by
    simp [firstLongest]
  rw [hrules, firstLongest, hnone, hclose]

/-! ## Room for the characters -/

/-- Behind `len` characters a block of `cap` bytes has room for `s`. A character with an
escape needs two free bytes, and the others double the block. -/
def room : ℕ → ℕ → List UInt8 → Bool
  | _, _, [] => true
  | len, cap, b :: s =>
      if isEscaped b then decide (len + 1 < cap) && room (len + 1) cap s
      else room (len + 1) (capFor cap (len + 2)) s

theorem room_plain {len cap : ℕ} {w : List UInt8} (s : List UInt8) (hcap : len + 1 ≤ cap)
    (hw : ∀ b ∈ w, isEscaped b = false) :
    room len cap (w ++ s) = room (len + w.length) (capFor cap (len + w.length + 1)) s := by
  induction w generalizing len cap with
  | nil => rw [List.nil_append, List.length_nil, Nat.add_zero, capFor_of_le hcap]
  | cons b w ih =>
      rw [List.forall_mem_cons] at hw
      have hlen : len + (b :: w).length = len + 1 + w.length := by
        rw [List.length_cons, Nat.add_assoc, Nat.add_comm 1]
      rw [List.cons_append, room, hw.1, if_neg Bool.false_ne_true,
        ih (le_capFor cap (len + 2)).2 hw.2, hlen]
      rw [capFor_capFor cap (by omega)]

/-! ## Scanning a literal -/

section Scan

variable {text : CString} {buf : StringT}

theorem scan_escape (h : Holds text buf) {b : UInt8} (hb : isEscaped b = true) (hne : b ≠ 0)
    (hroom : text.strlen + 1 < buf.cap) (input : List UInt8) :
    ∃ buf', (blockLexer strtof fresh).step (.ok ⟨.DQUOTE, some buf⟩) 92 (escSecond b :: input) =
        (.ok ⟨.DQUOTE, some buf'⟩, none, input) ∧
      buf'.cap = buf.cap ∧ Holds (text.push b hne) buf' := by
  obtain ⟨action, ch, hlex, rfl, hperform⟩ :=
    lexeme_escape strtof fresh hb buf input
  rw [← h.len_eq] at hroom
  obtain ⟨buf', hrun, hcap, hheld⟩ := h.appendStringChar fresh hne hroom
  rw [hrun, ok_bind] at hperform
  exact ⟨buf', blockLexer_step_ok (w := [escSecond (charOf ch)]) hlex hperform, hcap, hheld⟩

theorem scan_escape_halts (h : Holds text buf) {b : UInt8} (hb : isEscaped b = true)
    (hroom : ¬ text.strlen + 1 < buf.cap) (input : List UInt8) :
    ∃ halt, (blockLexer strtof fresh).scan (.ok ⟨.DQUOTE, some buf⟩)
      (92 :: escSecond b :: input) = ([], .error halt) := by
  obtain ⟨action, ch, hlex, -, hperform⟩ :=
    lexeme_escape strtof fresh hb buf input
  rw [← h.len_eq] at hroom
  rw [h.appendStringChar_outside fresh ch hroom, error_bind] at hperform
  exact ⟨.invalidAccess, blockLexer_scan_halt (w := [escSecond b]) hlex hperform⟩

theorem performBlock_appendText (buf : StringT) (w : CString) :
    performBlock strtof fresh w.bytes ⟨.DQUOTE, some buf⟩ .appendText =
      buf.appendString fresh w >>= fun buf' => .ok (⟨.DQUOTE, some buf'⟩, none) := by
  have happend : performBlock strtof fresh w.bytes ⟨.DQUOTE, some buf⟩ .appendText =
      theString (some buf) >>= fun strbuf => strbuf.appendString fresh (CString.read w.bytes) >>=
        fun buf' => .ok (⟨.DQUOTE, some buf'⟩, none) := rfl
  rw [happend, theString, ok_bind, CString.read_bytes]

theorem scan_plain (h : Holds text buf) (hcap : CapPow buf) {c : UInt8} {w rest : List UInt8}
    (hnul : 0 ∉ c :: w) (hplain : ∀ b ∈ c :: w, isEscaped b = false)
    (hrest : ∀ x ∈ rest.head?, isEscaped x = true)
    (hfit : text.strlen + (c :: w).length + 1 ≤ 2 ^ 30) :
    ∃ buf', (blockLexer strtof fresh).step (.ok ⟨.DQUOTE, some buf⟩) c (w ++ rest) =
        (.ok ⟨.DQUOTE, some buf'⟩, none, rest) ∧ CapPow buf' ∧
      buf'.cap = capFor buf.cap (text.strlen + (c :: w).length + 1) ∧
      Holds (text.append ⟨c :: w, hnul⟩) buf' := by
  rw [List.forall_mem_cons] at hplain
  obtain ⟨buf', hrun, hcap', hsize, hheld⟩ := h.appendString hcap fresh
    (show text.strlen + (⟨c :: w, hnul⟩ : CString).strlen + 1 ≤ 2 ^ 30 from hfit)
  have hperform := performBlock_appendText strtof fresh buf ⟨c :: w, hnul⟩
  rw [hrun, ok_bind] at hperform
  have hlex := lexeme_plain hplain.1 hplain.2 hrest
  exact ⟨buf', blockLexer_step_ok hlex hperform, hcap', hsize, hheld⟩

theorem scan_plain_halts (h : Holds text buf) (hcap : CapPow buf) {c : UInt8}
    {w rest : List UInt8} (hnul : 0 ∉ c :: w) (hplain : ∀ b ∈ c :: w, isEscaped b = false)
    (hrest : ∀ x ∈ rest.head?, isEscaped x = true)
    (hlong : ¬ text.strlen + (c :: w).length + 1 ≤ 2 ^ 30) :
    ∃ halt, (blockLexer strtof fresh).scan (.ok ⟨.DQUOTE, some buf⟩) (c :: (w ++ rest)) =
      ([], .error halt) := by
  rw [List.forall_mem_cons] at hplain
  have hperform := performBlock_appendText strtof fresh buf ⟨c :: w, hnul⟩
  cases hrun : buf.appendString fresh ⟨c :: w, hnul⟩ with
  | ok buf' => exact absurd (h.fits_append hcap hrun) hlong
  | error halt =>
      rw [hrun, error_bind] at hperform
      have hlex := lexeme_plain hplain.1 hplain.2 hrest
      exact ⟨halt, blockLexer_scan_halt hlex hperform⟩

theorem performBlock_closeQuote (h : Holds text buf) :
    performBlock strtof fresh [34] ⟨.DQUOTE, some buf⟩ .closeQuote =
      createString fresh (some text) >>= fun strg =>
        .ok (⟨.INITIAL, some buf⟩, some (.strgLiteral strg.rawString)) := by
  have hcopy : performBlock strtof fresh [34] ⟨.DQUOTE, some buf⟩ .closeQuote =
      theString (some buf) >>= fun strbuf => strbuf.copyString fresh >>= fun strg =>
        .ok (⟨.INITIAL, some buf⟩, some (.strgLiteral strg.rawString)) := rfl
  rw [hcopy, theString, ok_bind, copyString, h.rawString_eq]

theorem scan_close (h : Holds text buf) {rest : List UInt8} (hrest : ¬ BeginsContinuation rest)
    (hfit : text.strlen + 1 ≤ 2 ^ 30) :
    (blockLexer strtof fresh).step (.ok ⟨.DQUOTE, some buf⟩) 34 rest =
      (.ok ⟨.INITIAL, some buf⟩, some (.strgLiteral text), rest) := by
  obtain ⟨strg, hrun, -, hheld⟩ := createString_spec fresh
    (show ((some text).getD CString.empty).strlen + 1 ≤ 2 ^ 30 from hfit)
  have hperform := performBlock_closeQuote strtof fresh h
  rw [hrun, ok_bind, hheld.rawString_eq] at hperform
  exact blockLexer_step_ok (w := []) (lexeme_close hrest) hperform

theorem scan_close_halts (h : Holds text buf) {rest : List UInt8}
    (hrest : ¬ BeginsContinuation rest) (hlong : ¬ text.strlen + 1 ≤ 2 ^ 30) :
    ∃ halt, (blockLexer strtof fresh).scan (.ok ⟨.DQUOTE, some buf⟩) (34 :: rest) =
      ([], .error halt) := by
  have hperform := performBlock_closeQuote strtof fresh h
  cases hrun : createString fresh (some text) with
  | ok strg => exact absurd (createString_fits hrun) hlong
  | error halt =>
      rw [hrun, error_bind] at hperform
      exact ⟨halt, blockLexer_scan_halt (w := []) (lexeme_close hrest) hperform⟩

end Scan

/-! ## Whole literals -/

theorem esc_cons_escaped {b : UInt8} (hb : isEscaped b = true) (s : List UInt8) :
    esc (b :: s) = 92 :: escSecond b :: esc s := by
  simp [esc, escChar, hb]

theorem esc_append_plain {w : List UInt8} (hw : ∀ b ∈ w, isEscaped b = false) (s : List UInt8) :
    esc (w ++ s) = w ++ esc s := by
  induction w with
  | nil => rfl
  | cons b w ih =>
      rw [List.forall_mem_cons] at hw
      have hb : escChar b = [b] := by simp [escChar, hw.1]
      have htail := ih hw.2
      rw [esc] at htail ⊢
      rw [List.cons_append, List.flatMap_cons, hb, htail]
      rfl

theorem head_esc {s : List UInt8} (hs : ∀ x ∈ s.head?, isEscaped x = true) (rest : List UInt8) :
    ∀ x ∈ (esc s ++ 34 :: rest).head?, isEscaped x = true := by
  cases s with
  | nil =>
      rintro x hx
      obtain rfl : 34 = x := Option.some.inj hx
      rfl
  | cons b s =>
      rw [esc_cons_escaped (hs b rfl)]
      rintro x hx
      obtain rfl : 92 = x := Option.some.inj hx
      rfl

/-- A text is a sequence of characters with an escape and of longest runs without. -/
theorem pieces_induction {motive : List UInt8 → Prop} (nil : motive [])
    (escaped : ∀ b s, isEscaped b = true → motive s → motive (b :: s))
    (plain : ∀ c w s, (∀ b ∈ c :: w, isEscaped b = false) →
      (∀ x ∈ s.head?, isEscaped x = true) → motive s → motive (c :: w ++ s))
    (s : List UInt8) : motive s := by
  induction hlen : s.length using Nat.strongRecOn generalizing s with
  | ind n ih =>
      subst hlen
      cases s with
      | nil => exact nil
      | cons b s =>
          cases hb : isEscaped b with
          | true => exact escaped b s hb (ih s.length (Nat.lt_succ_self _) s rfl)
          | false =>
              have hsplit := List.takeWhile_append_dropWhile (p := fun b => !isEscaped b) (l := s)
              rw [← hsplit, ← List.cons_append]
              apply plain
              · rw [List.forall_mem_cons]
                refine ⟨hb, fun x hx => ?_⟩
                simpa using List.mem_takeWhile_imp hx
              · intro x hx
                have hdrop := List.head?_dropWhile_not (fun b => !isEscaped b) s
                rw [Option.mem_def.mp hx] at hdrop
                simpa using hdrop
              · apply ih _ _ _ rfl
                have hle := List.length_dropWhile_le (fun b => !isEscaped b) s
                exact Nat.lt_succ_of_le hle

variable {whole text : CString} {buf : StringT} {rest : List UInt8}

/-- Behind some characters of the literal the others are read and the quote ends it. -/
theorem runs_literal (hrest : ¬ BeginsContinuation rest) (hfit : whole.strlen + 1 ≤ 2 ^ 30)
    (s : List UInt8) : ∀ {text : CString} {buf : StringT}, whole.bytes = text.bytes ++ s →
      Holds text buf → CapPow buf → room text.strlen buf.cap s = true →
        ∃ strbuf, (blockLexer strtof fresh).Runs (.ok ⟨.DQUOTE, some buf⟩) (esc s ++ 34 :: rest)
          [.strgLiteral whole] (.ok ⟨.INITIAL, strbuf⟩) rest := by
  induction s using pieces_induction with
  | nil =>
      intro text buf hwhole h hcap hroom
      obtain rfl : whole = text := CString.ext (by rw [hwhole, List.append_nil])
      exact ⟨some buf, .head (scan_close strtof fresh h hrest hfit) (.refl _ _)⟩
  | escaped b s hb ih =>
      intro text buf hwhole h hcap hroom
      have hne : b ≠ 0 := by
        rintro rfl
        cases hb
      rw [room, if_pos hb, Bool.and_eq_true, decide_eq_true_eq] at hroom
      obtain ⟨buf', hstep, hsize, h'⟩ :=
        scan_escape strtof fresh h hb hne hroom.1 (esc s ++ 34 :: rest)
      have hwhole' : whole.bytes = (text.push b hne).bytes ++ s := by
        rw [hwhole, CString.push, List.append_assoc, List.singleton_append]
      have hlen : (text.push b hne).strlen = text.strlen + 1 := List.length_append
      have hroom' : room (text.push b hne).strlen buf'.cap s = true := by
        rw [hlen, hsize]
        exact hroom.2
      have hcap' : CapPow buf' := by rwa [CapPow, hsize]
      obtain ⟨strbuf, hruns⟩ := ih hwhole' h' hcap' hroom'
      rw [esc_cons_escaped hb]
      exact ⟨strbuf, .head hstep hruns⟩
  | plain c w s hplain hs ih =>
      intro text buf hwhole h hcap hroom
      have hnul : 0 ∉ c :: w := by
        intro hmem
        apply whole.nul_notMem
        rw [hwhole]
        exact List.mem_append_right _ (List.mem_append_left _ hmem)
      have hfit' : text.strlen + (c :: w).length + 1 ≤ 2 ^ 30 := by
        have hlen := congrArg List.length hwhole
        rw [List.length_append, List.length_append] at hlen
        rw [CString.strlen] at hfit ⊢
        omega
      obtain ⟨buf', hstep, hcap', hsize, h'⟩ := scan_plain strtof fresh h
        hcap hnul hplain (head_esc hs rest) hfit'
      have hwhole' : whole.bytes = (text.append ⟨c :: w, hnul⟩).bytes ++ s := by
        rw [hwhole, CString.append, List.append_assoc]
      have hroom' : room (text.append ⟨c :: w, hnul⟩).strlen buf'.cap s = true := by
        have hlen : (text.append ⟨c :: w, hnul⟩).strlen = text.strlen + (c :: w).length :=
          List.length_append
        rw [← h.len_eq] at hroom
        rw [room_plain s h.len_lt hplain, h.len_eq] at hroom
        rwa [hlen, hsize]
      obtain ⟨strbuf, hruns⟩ := ih hwhole' h' hcap' hroom'
      rw [esc_append_plain hplain, List.append_assoc, List.cons_append]
      exact ⟨strbuf, .head hstep hruns⟩

/-- Where a character has no room or the literal is too long, the scan ends before the token. -/
theorem scan_literal_halts (hrest : ¬ BeginsContinuation rest) (s : List UInt8) :
    ∀ {text : CString} {buf : StringT}, whole.bytes = text.bytes ++ s →
      Holds text buf → CapPow buf →
        ¬ (room text.strlen buf.cap s = true ∧ whole.strlen + 1 ≤ 2 ^ 30) →
          ∃ halt, (blockLexer strtof fresh).scan (.ok ⟨.DQUOTE, some buf⟩)
            (esc s ++ 34 :: rest) = ([], .error halt) := by
  induction s using pieces_induction with
  | nil =>
      intro text buf hwhole h hcap hbad
      obtain rfl : whole = text := CString.ext (by rw [hwhole, List.append_nil])
      exact scan_close_halts strtof fresh h hrest fun hfit => hbad ⟨rfl, hfit⟩
  | escaped b s hb ih =>
      intro text buf hwhole h hcap hbad
      rw [esc_cons_escaped hb]
      have hne : b ≠ 0 := by
        rintro rfl
        cases hb
      by_cases hfree : text.strlen + 1 < buf.cap
      · obtain ⟨buf', hstep, hsize, h'⟩ :=
          scan_escape strtof fresh h hb hne hfree (esc s ++ 34 :: rest)
        have hwhole' : whole.bytes = (text.push b hne).bytes ++ s := by
          rw [hwhole, CString.push, List.append_assoc, List.singleton_append]
        have hlen : (text.push b hne).strlen = text.strlen + 1 := List.length_append
        have hbad' : ¬ (room (text.push b hne).strlen buf'.cap s = true ∧
            whole.strlen + 1 ≤ 2 ^ 30) := by
          rintro ⟨hroom, hfit⟩
          rw [hlen, hsize] at hroom
          apply hbad
          rw [room, if_pos hb, hroom]
          exact ⟨by simpa using hfree, hfit⟩
        have hcap' : CapPow buf' := by rwa [CapPow, hsize]
        obtain ⟨halt, hscan⟩ := ih hwhole' h' hcap' hbad'
        rw [List.cons_append, List.cons_append, Lexer.scan_cons, hstep, hscan]
        exact ⟨halt, rfl⟩
      · exact scan_escape_halts strtof fresh h hb hfree (esc s ++ 34 :: rest)
  | plain c w s hplain hs ih =>
      intro text buf hwhole h hcap hbad
      rw [esc_append_plain hplain, List.append_assoc, List.cons_append]
      have hnul : 0 ∉ c :: w := by
        intro hmem
        apply whole.nul_notMem
        rw [hwhole]
        exact List.mem_append_right _ (List.mem_append_left _ hmem)
      by_cases hfit' : text.strlen + (c :: w).length + 1 ≤ 2 ^ 30
      · obtain ⟨buf', hstep, hcap', hsize, h'⟩ := scan_plain strtof fresh h
          hcap hnul hplain (head_esc hs rest) hfit'
        have hwhole' : whole.bytes = (text.append ⟨c :: w, hnul⟩).bytes ++ s := by
          rw [hwhole, CString.append, List.append_assoc]
        have hbad' : ¬ (room (text.append ⟨c :: w, hnul⟩).strlen buf'.cap s = true ∧
            whole.strlen + 1 ≤ 2 ^ 30) := by
          have hlen : (text.append ⟨c :: w, hnul⟩).strlen = text.strlen + (c :: w).length :=
            List.length_append
          rintro ⟨hroom, hfit⟩
          apply hbad
          rw [← h.len_eq, room_plain s h.len_lt hplain, h.len_eq, ← hsize, ← hlen]
          exact ⟨hroom, hfit⟩
        obtain ⟨halt, hscan⟩ := ih hwhole' h' hcap' hbad'
        rw [Lexer.scan_cons, hstep, hscan]
        exact ⟨halt, rfl⟩
      · exact scan_plain_halts strtof fresh h hcap hnul hplain (head_esc hs rest) hfit'

/-- What the scanner has when it comes to a token of some file. -/
inductive Reached : BlockState → Prop
  | initial : Reached ⟨.INITIAL, none⟩
  | scanned {s s' : BlockState} {input rest : List UInt8} {ts : List Token}
      (h : Reached s)
      (hruns : (blockLexer strtof fresh).Runs (.ok s) input ts (.ok s') rest) : Reached s'

theorem Reached.strbufSound {strtof : CString → UInt32} {fresh : ℕ → UInt8} {s : BlockState}
    (h : Reached strtof fresh s) : StrbufSound s := by
  induction h with
  | initial =>
      rintro held hheld
      cases hheld
  | scanned h hruns ih => exact ih.of_runs hruns

/-- The capacity when the first quote is read. -/
def openCap (strbuf : Option StringT) : ℕ :=
  match strbuf with
  | none => 8
  | some strbuf => strbuf.cap

theorem open_spec {strbuf : Option StringT} (h : ∀ held ∈ strbuf, Sound held)
    (input : List UInt8) :
    ∃ buf, (blockLexer strtof fresh).step (.ok ⟨.INITIAL, strbuf⟩) 34 input =
        (.ok ⟨.DQUOTE, some buf⟩, none, input) ∧
      CapPow buf ∧ buf.cap = openCap strbuf ∧ Holds CString.empty buf := by
  obtain ⟨buf, hfresh, hcap, hsize, hheld⟩ : ∃ buf, freshString fresh strbuf = .ok buf ∧
      CapPow buf ∧ buf.cap = openCap strbuf ∧ Holds CString.empty buf := by
    cases strbuf with
    | none => exact ⟨_, rfl, capPow_empty, rfl, holds_empty⟩
    | some strbuf => exact (h strbuf rfl).clearString
  have hopen : performBlock strtof fresh [34] ⟨.INITIAL, strbuf⟩ (.openQuote .DQUOTE) =
      freshString fresh strbuf >>= fun buf => .ok (⟨.DQUOTE, some buf⟩, none) := rfl
  rw [hfresh, ok_bind] at hopen
  exact ⟨buf, blockLexer_step_ok (w := []) (lexeme_quote input) hopen, hcap, hsize, hheld⟩

theorem quoted_append (s : CString) (rest : List UInt8) :
    quoted s ++ rest = 34 :: (esc s.bytes ++ 34 :: rest) := by
  rw [quoted, List.cons_append, List.append_assoc, List.singleton_append]

theorem runs_quoted {strbuf : Option StringT} (h : ∀ held ∈ strbuf, Sound held) {s : CString}
    (hrest : ¬ BeginsContinuation rest) (hroom : room 0 (openCap strbuf) s.bytes = true)
    (hfit : s.strlen + 1 ≤ 2 ^ 30) :
    ∃ strbuf', (blockLexer strtof fresh).Runs (.ok ⟨.INITIAL, strbuf⟩) (quoted s ++ rest)
      [.strgLiteral s] (.ok ⟨.INITIAL, strbuf'⟩) rest := by
  obtain ⟨buf, hopen, hcap, hsize, hheld⟩ :=
    open_spec strtof fresh h (esc s.bytes ++ 34 :: rest)
  rw [← hsize] at hroom
  obtain ⟨strbuf', hruns⟩ := runs_literal strtof fresh hrest hfit s.bytes
    (show s.bytes = CString.empty.bytes ++ s.bytes from rfl) hheld hcap hroom
  rw [quoted_append]
  exact ⟨strbuf', .head hopen hruns⟩

theorem scan_quoted_halts {strbuf : Option StringT} (h : ∀ held ∈ strbuf, Sound held)
    {s : CString} (hrest : ¬ BeginsContinuation rest)
    (hbad : ¬ (room 0 (openCap strbuf) s.bytes = true ∧ s.strlen + 1 ≤ 2 ^ 30)) :
    ∃ halt, (blockLexer strtof fresh).scan (.ok ⟨.INITIAL, strbuf⟩) (quoted s ++ rest) =
      ([], .error halt) := by
  obtain ⟨buf, hopen, hcap, hsize, hheld⟩ :=
    open_spec strtof fresh h (esc s.bytes ++ 34 :: rest)
  rw [← hsize] at hbad
  obtain ⟨halt, hscan⟩ := scan_literal_halts strtof fresh hrest s.bytes
    (show s.bytes = CString.empty.bytes ++ s.bytes from rfl) hheld hcap hbad
  rw [quoted_append, Lexer.scan_cons, hopen, hscan]
  exact ⟨halt, rfl⟩

/-- A literal is read back, wherever it stands, exactly when every quote, backslash and
newline of it finds two free bytes and the block can still hold it. -/
theorem literal_roundTrips_iff {strtof : CString → UInt32} {fresh : ℕ → UInt8}
    {strbuf : Option StringT} (h : Reached strtof fresh ⟨.INITIAL, strbuf⟩) (s : CString)
    {rest : List UInt8} (hrest : ¬ BeginsContinuation rest) :
    (∃ strbuf', (blockLexer strtof fresh).Runs (.ok ⟨.INITIAL, strbuf⟩) (quoted s ++ rest)
        [.strgLiteral s] (.ok ⟨.INITIAL, strbuf'⟩) rest) ↔
      room 0 (openCap strbuf) s.bytes = true ∧ s.strlen + 1 ≤ 2 ^ 30 := by
  constructor
  · rintro ⟨strbuf', hruns⟩
    by_contra hbad
    obtain ⟨halt, hscan⟩ := scan_quoted_halts strtof fresh h.strbufSound hrest hbad
    have htokens := hruns.scan
    rw [hscan] at htokens
    cases htokens
  · rintro ⟨hroom, hfit⟩
    exact runs_quoted strtof fresh h.strbufSound hrest hroom hfit

theorem not_beginsContinuation_nil : ¬ BeginsContinuation [] := by
  rintro ⟨before, behind, indent, more, -, -, -, heq⟩
  exact absurd heq (by simp)

theorem literal_roundTrips_quote :
    ∃ strbuf', (blockLexer (fun _ => 0) fun _ => 0).Runs (.ok ⟨.INITIAL, none⟩)
      (quoted ⟨[97, 34], by decide⟩ ++ []) [.strgLiteral ⟨[97, 34], by decide⟩]
        (.ok ⟨.INITIAL, strbuf'⟩) [] :=
  (literal_roundTrips_iff .initial ⟨[97, 34], by decide⟩ not_beginsContinuation_nil).mpr
    ⟨by decide, by decide⟩

/-- A quote behind seven letters has its terminator written behind the eight bytes. -/
theorem not_literal_roundTrips : ¬ ∀ (strtof : CString → UInt32) (fresh : ℕ → UInt8)
    (s : CString) (rest : List UInt8), ¬ BeginsContinuation rest →
      ∃ strbuf', (blockLexer strtof fresh).Runs (.ok ⟨.INITIAL, none⟩) (quoted s ++ rest)
        [.strgLiteral s] (.ok ⟨.INITIAL, strbuf'⟩) rest := by
  intro hall
  obtain ⟨strbuf', hruns⟩ := hall (fun _ => 0) (fun _ => 0)
    ⟨[97, 97, 97, 97, 97, 97, 97, 34], by decide⟩ [] not_beginsContinuation_nil
  have hsound : ∀ held ∈ (none : Option StringT), Sound held := by
    rintro held hheld
    cases hheld
  obtain ⟨halt, hscan⟩ := scan_quoted_halts (fun _ => 0) (fun _ => 0) hsound
    (s := ⟨[97, 97, 97, 97, 97, 97, 97, 34], by decide⟩) not_beginsContinuation_nil (by decide)
  have htokens := hruns.scan
  rw [hscan] at htokens
  cases htokens

end SimpleVm.Scanner
