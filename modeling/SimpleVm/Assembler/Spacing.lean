import Mathlib.Data.List.Chain
import SimpleVm.Assembler.Lexemes
import SimpleVm.Assembler.Parser

/-!
# White space between the lexemes of an index expression

A minus sign belongs to the literal behind it where nothing stands between
them and the literal does not begin with a zero. Everything else in an index
expression is cut in the same way with and without white space.
-/

namespace SimpleVm.Scanner

variable {strtof : CString → UInt32}

/-! ## Expressions as they are written -/

/-- The three ways to write a literal that is not negative. -/
inductive SourceLiteral where
  | zero
  | decimal (first : UInt8) (digits : List UInt8) (hfirst : range 49 57 first = true)
      (hdigits : ∀ b ∈ digits, range 48 57 b = true)
  | hex (x : UInt8) (digits : List UInt8) (hx : x = 120 ∨ x = 88) (hne : digits ≠ [])
      (hdigits : ∀ b ∈ digits, isHexDigit b = true)

inductive SourceExpr where
  | literal (l : SourceLiteral)
  | binary (op : Parser.IndexOp) (lhs rhs : SourceExpr)
  | paren (expr : SourceExpr)

inductive Lexeme where
  | literal (l : SourceLiteral)
  | operator (op : Parser.IndexOp)
  | openParen
  | closeParen

def SourceExpr.lexemes : SourceExpr → List Lexeme
  | .literal l => [.literal l]
  | .binary op lhs rhs => lhs.lexemes ++ .operator op :: rhs.lexemes
  | .paren expr => .openParen :: (expr.lexemes ++ [.closeParen])

def opByte : Parser.IndexOp → UInt8
  | .add => 43
  | .sub => 45
  | .mul => 42
  | .div => 47
  | .mod => 37

namespace Lexeme

/-- The first byte and the others. -/
def text : Lexeme → UInt8 × List UInt8
  | .literal .zero => (48, [])
  | .literal (.decimal first digits _ _) => (first, digits)
  | .literal (.hex x digits _ _ _) => (48, x :: digits)
  | .operator op => (opByte op, [])
  | .openParen => (40, [])
  | .closeParen => (41, [])

def bytes (l : Lexeme) : List UInt8 := l.text.1 :: l.text.2

def action : Lexeme → Action
  | .literal .zero => .intLiteral
  | .literal (.decimal _ _ _ _) => .intLiteral
  | .literal (.hex _ _ _ _ _) => .uintLiteral
  | .operator op => .ret (.punct (opByte op))
  | .openParen => .ret (.punct 40)
  | .closeParen => .ret (.punct 41)

end Lexeme

/-! ## Where a lexeme ends -/

/-- What can stand behind a literal or a closing parenthesis. -/
def endsOperand (x : UInt8) : Bool := isSpace x || [43, 45, 42, 47, 37, 41].contains x

/-- What can stand behind an operator or an opening parenthesis. -/
def startsOperand (x : UInt8) : Bool := isSpace x || range 48 57 x || x == 40

/-- The rules of integers and of floating point numbers behind a digit. -/
def digitRules : List (LexRule UInt8 Action) :=
  [⟨.star digit, .intLiteral⟩,
    ⟨.seq (.star digit) (sequence [byte 46, .star digit,
      .opt (sequence [byte 101, .opt (oneOf [45, 43]), decimal])]), .floatLiteral⟩]

def hexRules : List (LexRule UInt8 Action) :=
  [⟨.seq (.star hexDigit) .empty, .uintLiteral⟩]

theorem nonzero_cases {b : UInt8} (hb : range 49 57 b = true) :
    b ∈ [49, 50, 51, 52, 53, 54, 55, 56, 57] := by
  simp only [range, Bool.and_eq_true, decide_eq_true_eq] at hb
  have hrange : 49 ≤ b.toNat ∧ b.toNat ≤ 57 := hb
  simp only [List.mem_cons, List.not_mem_nil, or_false, ← UInt8.toNat_inj]
  change b.toNat = 49 ∨ b.toNat = 50 ∨ b.toNat = 51 ∨ b.toNat = 52 ∨ b.toNat = 53 ∨
    b.toNat = 54 ∨ b.toNat = 55 ∨ b.toNat = 56 ∨ b.toNat = 57
  omega

theorem digit_cases {b : UInt8} (hb : range 48 57 b = true) :
    b = 48 ∨ range 49 57 b = true := by
  simp only [range, Bool.and_eq_true, decide_eq_true_eq] at hb ⊢
  have hrange : 48 ≤ b.toNat ∧ b.toNat ≤ 57 := hb
  rw [← UInt8.toNat_inj]
  change b.toNat = 48 ∨ 49 ≤ b.toNat ∧ b.toNat ≤ 57
  omega

theorem digitRules_loop {b : UInt8} (hb : range 48 57 b = true) :
    rulesAfter b digitRules = digitRules := by
  rcases digit_cases hb with rfl | hnonzero
  · rfl
  · have hmem := nonzero_cases hnonzero
    simp only [List.mem_cons, List.not_mem_nil, or_false] at hmem
    rcases hmem with rfl | rfl | rfl | rfl | rfl | rfl | rfl | rfl | rfl <;> rfl

theorem hexRules_loop {b : UInt8} (hb : isHexDigit b = true) :
    rulesAfter b hexRules = hexRules := by
  simp [rulesAfter, hexRules, hexDigit, Regex.deriv, Regex.nullable, Regex.seqNever,
    Regex.altNever, hb]

def endBytes : List UInt8 := [32, 9, 13, 10, 11, 12, 43, 45, 42, 47, 37, 41]

theorem mem_endBytes {x : UInt8} (h : endsOperand x = true) : x ∈ endBytes := by
  simpa [endsOperand, isSpace, endBytes, or_assoc] using h

theorem startsOperand_cases {x : UInt8} (h : startsOperand x = true) :
    x ∈ [40, 32, 9, 13, 10, 11, 12] ∨ x = 48 ∨ x ∈ [49, 50, 51, 52, 53, 54, 55, 56, 57] := by
  simp only [startsOperand, Bool.or_eq_true] at h
  rcases h with (hspace | hdigit) | hparen
  · simp only [isSpace, List.contains_iff_mem] at hspace
    exact Or.inl (List.mem_cons_of_mem 40 hspace)
  · exact Or.inr ((digit_cases hdigit).imp_right nonzero_cases)
  · exact Or.inl (eq_of_beq hparen ▸ List.mem_cons_self)

/-- No rule goes on with any of these bytes. -/
theorem stop_of_all {rules : List (LexRule UInt8 Action)} (bytes : List UInt8) {rest : List UInt8}
    (h : (bytes.all fun x => (rulesAfter x rules).isEmpty) = true)
    (hrest : ∀ x ∈ rest.head?, x ∈ bytes) : ∀ x ∈ rest.head?, rulesAfter x rules = [] := by
  intro x hx
  exact List.isEmpty_iff.mp (List.all_eq_true.mp h x (hrest x hx))

section Reads

variable {rest : List UInt8}

theorem lexeme_zero (hrest : ∀ x ∈ rest.head?, endsOperand x = true) :
    lexeme .INITIAL 48 rest = (0, .intLiteral) :=
  lexeme_of_firstLongest
    (firstLongest_stop rfl (stop_of_all endBytes rfl fun x hx => mem_endBytes (hrest x hx)))

theorem rulesAfter_nonzero {b : UInt8} (hb : range 49 57 b = true) :
    rulesAfter b (rules .INITIAL) = digitRules ++ [⟨.empty, .invalidCharacter⟩] ∧
      rulesAfter b (rulesAfter 45 (rules .INITIAL)) = digitRules := by
  have hmem := nonzero_cases hb
  simp only [List.mem_cons, List.not_mem_nil, or_false] at hmem
  rcases hmem with rfl | rfl | rfl | rfl | rfl | rfl | rfl | rfl | rfl <;> exact ⟨rfl, rfl⟩

theorem firstLongest_digits {digits : List UInt8} (hdigits : ∀ b ∈ digits, range 48 57 b = true)
    (hrest : ∀ x ∈ rest.head?, endsOperand x = true) :
    firstLongest digitRules (digits ++ rest) = some (digits.length, .intLiteral) :=
  firstLongest_run (fun _ => digitRules_loop) rfl hdigits
    (stop_of_all endBytes rfl fun x hx => mem_endBytes (hrest x hx))

theorem lexeme_decimal {first : UInt8} {digits : List UInt8} (hfirst : range 49 57 first = true)
    (hdigits : ∀ b ∈ digits, range 48 57 b = true)
    (hrest : ∀ x ∈ rest.head?, endsOperand x = true) :
    lexeme .INITIAL first (digits ++ rest) = (digits.length, .intLiteral) := by
  apply lexeme_of_firstLongest
  rw [(rulesAfter_nonzero hfirst).1]
  cases digits with
  | nil => exact firstLongest_stop rfl (stop_of_all endBytes rfl fun x hx => mem_endBytes (hrest x hx))
  | cons b digits =>
      rw [List.forall_mem_cons] at hdigits
      have hnext : rulesAfter b (digitRules ++ [⟨.empty, .invalidCharacter⟩]) = digitRules :=
        digitRules_loop hdigits.1
      rw [List.cons_append, firstLongest_cons, hnext, firstLongest_digits hdigits.2 hrest]
      rfl

/-- A minus sign goes with the digits behind it. -/
theorem lexeme_minus_decimal {first : UInt8} {digits : List UInt8}
    (hfirst : range 49 57 first = true) (hdigits : ∀ b ∈ digits, range 48 57 b = true)
    (hrest : ∀ x ∈ rest.head?, endsOperand x = true) :
    lexeme .INITIAL 45 (first :: (digits ++ rest)) = (digits.length + 1, .intLiteral) := by
  apply lexeme_of_firstLongest
  rw [firstLongest_cons, (rulesAfter_nonzero hfirst).2, firstLongest_digits hdigits hrest]

theorem lexeme_hex {x : UInt8} {digits : List UInt8} (hx : x = 120 ∨ x = 88) (hne : digits ≠ [])
    (hdigits : ∀ b ∈ digits, isHexDigit b = true)
    (hrest : ∀ x ∈ rest.head?, endsOperand x = true) :
    lexeme .INITIAL 48 (x :: digits ++ rest) = (digits.length + 1, .uintLiteral) := by
  apply lexeme_of_firstLongest
  obtain ⟨b, digits, rfl⟩ := List.exists_cons_of_ne_nil hne
  rw [List.forall_mem_cons] at hdigits
  have hprefix : rulesAfter x (rulesAfter 48 (rules .INITIAL)) =
      [⟨.seq (.plus hexDigit) .empty, .uintLiteral⟩] := by
    rcases hx with rfl | rfl
    · rfl
    · rfl
  have hfirst : rulesAfter b [⟨.seq (.plus hexDigit) .empty, .uintLiteral⟩] = hexRules := by
    simp [rulesAfter, hexRules, hexDigit, Regex.plus, Regex.deriv, Regex.nullable,
      Regex.seqNever, hdigits.1]
  have hrun : firstLongest hexRules (digits ++ rest) = some (digits.length, .uintLiteral) :=
    firstLongest_run (fun _ => hexRules_loop) rfl hdigits.2
      (stop_of_all endBytes rfl fun x hx => mem_endBytes (hrest x hx))
  rw [List.cons_append, firstLongest_cons, hprefix, List.cons_append, firstLongest_cons, hfirst,
    hrun]
  rfl

theorem lexeme_minus (hrest : ∀ x ∈ rest.head?, startsOperand x = true ∧ range 49 57 x = false)
    (hzero : ∀ y ∈ rest.tail.head?, y ≠ 46) :
    lexeme .INITIAL 45 rest = (0, .ret (.punct 45)) := by
  apply lexeme_of_firstLongest
  by_cases hhead : rest.head? = some 48
  · obtain ⟨rest, rfl⟩ : ∃ more, rest = 48 :: more := by
      cases rest with
      | nil => cases hhead
      | cons x rest => exact ⟨rest, by rw [Option.some.inj hhead]⟩
    -- the rule for floating point numbers waits for a point
    have hnone : firstLongest (rulesAfter 48 (rulesAfter 45 initialRules)) rest = none := by
      cases rest with
      | nil => rfl
      | cons y rest =>
          have hfold : (fold y == fold 46) = false := fold_ne rfl rfl (hzero y rfl)
          have hwait : rulesAfter 48 (rulesAfter 45 initialRules) =
              [⟨sequence [byte 46, .star digit,
                .opt (sequence [byte 101, .opt (oneOf [45, 43]), decimal])], .floatLiteral⟩] := rfl
          have hdead : rulesAfter y (rulesAfter 48 (rulesAfter 45 initialRules)) = [] := by
            rw [hwait]
            simp [rulesAfter, sequence, byte, Regex.deriv, Regex.nullable, Regex.seqNever, hfold]
          rw [firstLongest_cons, hdead]
          rfl
    rw [rules, firstLongest_cons, hnone]
    rfl
  · refine firstLongest_stop rfl (stop_of_all [40, 32, 9, 13, 10, 11, 12] rfl ?_)
    intro x hx
    obtain ⟨hstarts, hnonzero⟩ := hrest x hx
    rcases startsOperand_cases hstarts with hmem | rfl | hmem
    · exact hmem
    · exact absurd hx hhead
    · simp only [List.mem_cons, List.not_mem_nil, or_false] at hmem
      rcases hmem with rfl | rfl | rfl | rfl | rfl | rfl | rfl | rfl | rfl <;> cases hnonzero

theorem lexeme_slash (hrest : ∀ x ∈ rest.head?, startsOperand x = true) :
    lexeme .INITIAL 47 rest = (0, .ret (.punct 47)) :=
  lexeme_of_firstLongest
    (firstLongest_stop rfl (stop_of_all
      ([40, 32, 9, 13, 10, 11, 12] ++ 48 :: [49, 50, 51, 52, 53, 54, 55, 56, 57]) rfl
      fun x hx => List.mem_append.mpr
        ((startsOperand_cases (hrest x hx)).imp_right List.mem_cons.mpr)))

/-- The bytes that are one token whatever follows. -/
theorem lexeme_punct {c : UInt8} (hc : c ∈ [43, 42, 37, 40, 41]) (rest : List UInt8) :
    lexeme .INITIAL c rest = (0, .ret (.punct c)) := by
  have hfacts : ∀ c ∈ ([43, 42, 37, 40, 41] : List UInt8),
      (∀ rule ∈ rules .INITIAL, (rule.pattern.after [c]).isSettled) ∧
        firstLongest (rules .INITIAL) [c] = some (1, .ret (.punct c)) := by decide +kernel
  obtain ⟨hsettled, hbest⟩ := hfacts c hc
  exact lexeme_append (w := []) hsettled hbest rest

end Reads

/-! ## Lexemes in a row -/

namespace Lexeme

def isStart : Lexeme → Bool
  | .literal _ => true
  | .openParen => true
  | .operator _ => false
  | .closeParen => false

def isEnd : Lexeme → Bool
  | .literal _ => true
  | .closeParen => true
  | .operator _ => false
  | .openParen => false

/-- Operands and what joins them take turns. -/
def Follows (l m : Lexeme) : Prop := m.isStart = !l.isEnd

def token (l : Lexeme) : Token :=
  match l with
  | .literal .zero => .intLiteral (Int32.ofInt (strtolDecimal l.bytes))
  | .literal (.decimal _ _ _ _) => .intLiteral (Int32.ofInt (strtolDecimal l.bytes))
  | .literal (.hex _ _ _ _ _) =>
      .uintLiteral (UInt32.ofNat (strtolDigits 16 (l.bytes.drop 2)).toNat)
  | .operator op => .punct (opByte op)
  | .openParen => .punct 40
  | .closeParen => .punct 41

theorem startsOperand_text {l : Lexeme} (h : l.isStart = true) :
    startsOperand l.text.1 = true := by
  cases l with
  | literal l =>
      cases l with
      | zero => rfl
      | decimal first digits hfirst hdigits =>
          have hrange : range 48 57 first = true := by
            simp only [range, Bool.and_eq_true, decide_eq_true_eq] at hfirst ⊢
            exact ⟨UInt8.le_trans (by decide) hfirst.1, hfirst.2⟩
          simp [text, startsOperand, hrange]
      | hex x digits hx hne hdigits => rfl
  | operator op => cases h
  | openParen => rfl
  | closeParen => cases h

theorem endsOperand_text {l : Lexeme} (h : l.isStart = false) : endsOperand l.text.1 = true := by
  cases l with
  | literal l => cases h
  | operator op => cases op <;> rfl
  | openParen => cases h
  | closeParen => rfl

theorem perform_action (strtof : CString → UInt32) (s : ScannerState) (l : Lexeme) :
    perform strtof l.bytes s l.action = (s, some l.token) := by
  cases l with
  | literal l => cases l <;> rfl
  | operator op => rfl
  | openParen => rfl
  | closeParen => rfl

theorem point_not_mem (l : Lexeme) : 46 ∉ l.bytes := by
  cases l with
  | literal l =>
      cases l with
      | zero => decide
      | decimal first digits hfirst hdigits =>
          rw [bytes, List.mem_cons, not_or]
          refine ⟨?_, fun h => absurd (hdigits 46 h) (by decide)⟩
          rintro rfl
          exact absurd hfirst (by decide)
      | hex x digits hx hne hdigits =>
          have hzero : (46 : UInt8) ≠ 48 := by decide
          have hletter : 46 ≠ x := by
            rintro rfl
            exact absurd hx (by decide)
          have hrest : 46 ∉ digits := fun h => absurd (hdigits 46 h) (by decide)
          simp [bytes, text, hzero, hletter, hrest]
  | operator op => cases op <;> decide
  | openParen => decide
  | closeParen => decide

end Lexeme

theorem SourceExpr.lexemes_ne_nil (e : SourceExpr) : e.lexemes ≠ [] := by
  cases e <;> simp [lexemes]

theorem SourceExpr.lexemes_chain (e : SourceExpr) :
    e.lexemes.IsChain Lexeme.Follows ∧ (∀ l ∈ e.lexemes.head?, l.isStart = true) ∧
      ∀ l ∈ e.lexemes.getLast?, l.isEnd = true := by
  induction e with
  | literal l => simp [lexemes, Lexeme.isStart, Lexeme.isEnd]
  | binary op lhs rhs ihl ihr =>
      obtain ⟨hl, hlstart, hlend⟩ := ihl
      obtain ⟨hr, hrstart, hrend⟩ := ihr
      have hop : (Lexeme.operator op :: rhs.lexemes).IsChain Lexeme.Follows :=
        List.isChain_cons.mpr ⟨fun m hm => hrstart m hm, hr⟩
      refine ⟨hl.append hop ?_, ?_, ?_⟩
      · intro l hlast m hm
        obtain rfl : Lexeme.operator op = m := Option.some.inj hm
        simp [Lexeme.Follows, Lexeme.isStart, hlend l hlast]
      · rw [lexemes, List.head?_append_of_ne_nil _ lhs.lexemes_ne_nil]
        exact hlstart
      · rw [lexemes, List.append_cons, List.getLast?_append_of_ne_nil _ rhs.lexemes_ne_nil]
        exact hrend
  | paren e ih =>
      obtain ⟨hchain, hstart, hend⟩ := ih
      have hclose : (e.lexemes ++ [Lexeme.closeParen]).IsChain Lexeme.Follows := by
        refine hchain.append (List.isChain_singleton _) ?_
        intro l hlast m hm
        obtain rfl : Lexeme.closeParen = m := Option.some.inj hm
        simp [Lexeme.Follows, Lexeme.isStart, hend l hlast]
      refine ⟨List.isChain_cons.mpr ⟨?_, hclose⟩, ?_, ?_⟩
      · rw [List.head?_append_of_ne_nil _ e.lexemes_ne_nil]
        exact fun m hm => hstart m hm
      · simp [lexemes, Lexeme.isStart]
      · rw [lexemes, ← List.cons_append, List.getLast?_append_of_ne_nil _ (List.cons_ne_nil _ _)]
        simp [Lexeme.isEnd]

/-! ## Texts -/

/-- Lexemes, each with the white space behind it. -/
def written (parts : List (Lexeme × List UInt8)) : List UInt8 :=
  parts.flatMap fun p => p.1.bytes ++ p.2

/-- The first lexeme is a minus sign with digits directly behind it. -/
def absorbs : List (Lexeme × List UInt8) → Bool
  | (.operator .sub, []) :: (.literal (.decimal _ _ _ _), _) :: _ => true
  | _ => false

/-- The tokens that the scanner makes. -/
def scanned : List (Lexeme × List UInt8) → List Token
  | (.operator .sub, []) :: (.literal (.decimal first digits _ _), _) :: parts =>
      .intLiteral (Int32.ofInt (strtolDecimal (45 :: first :: digits))) :: scanned parts
  | (l, _) :: parts => l.token :: scanned parts
  | [] => []

/-- For every lexeme whether it goes with the digits behind it. -/
def absorbed : List (Lexeme × List UInt8) → List Bool
  | [] => []
  | p :: parts => absorbs (p :: parts) :: absorbed parts

theorem scanned_cons {l : Lexeme} {g : List UInt8} {parts : List (Lexeme × List UInt8)}
    (h : absorbs ((l, g) :: parts) = false) :
    scanned ((l, g) :: parts) = l.token :: scanned parts := by
  unfold absorbs at h
  split at h
  · cases h
  · next hno =>
      rw [scanned]
      rintro first digits hfirst hdigits g' more rfl rfl rfl
      exact hno first digits hfirst hdigits g' more rfl

theorem scan_gap (strbuf : List UInt8) {g : List UInt8} (hg : ∀ b ∈ g, isSpace b = true)
    (rest : List UInt8) :
    (lexer strtof).scan ⟨.INITIAL, strbuf⟩ (g ++ rest) =
      (lexer strtof).scan ⟨.INITIAL, strbuf⟩ rest := by
  cases g with
  | nil => rfl
  | cons c g =>
      have hgap : Gap (c :: g) := ⟨List.cons_ne_nil c g, hg⟩
      rw [(hgap.runs strtof strbuf rest).scan]
      cases rest with
      | nil => rfl
      | cons b rest =>
          cases hb : isSpace b with
          | true =>
              have hone : Gap [b] := ⟨List.cons_ne_nil b [], by simpa using hb⟩
              have hrest := (hone.runs strtof strbuf rest).scan
              rw [List.singleton_append] at hrest
              rw [hrest, List.dropWhile_cons_of_pos hb]
          | false =>
              rw [List.dropWhile_cons_of_neg (by simp [hb])]
              rfl

theorem scan_lexeme (strbuf : List UInt8) {l : Lexeme} {rest : List UInt8}
    (hlex : lexeme .INITIAL l.text.1 (l.text.2 ++ rest) = (l.text.2.length, l.action)) :
    (lexer strtof).scan ⟨.INITIAL, strbuf⟩ (l.bytes ++ rest) =
      (l.token :: ((lexer strtof).scan ⟨.INITIAL, strbuf⟩ rest).1,
        ((lexer strtof).scan ⟨.INITIAL, strbuf⟩ rest).2) := by
  have hstep : (lexer strtof).step ⟨.INITIAL, strbuf⟩ l.text.1 (l.text.2 ++ rest) =
      (⟨.INITIAL, strbuf⟩, some l.token, rest) := by
    have hperform := l.perform_action strtof ⟨.INITIAL, strbuf⟩
    rw [Lexeme.bytes] at hperform
    rw [lexer_step hlex, List.take_left, List.drop_left, hperform]
  rw [Lexeme.bytes, List.cons_append, Lexer.scan_cons, hstep]
  rfl

/-- What stands directly behind a gap that may be empty. -/
theorem head_cases {g : List UInt8} {parts : List (Lexeme × List UInt8)}
    (hg : ∀ b ∈ g, isSpace b = true) {x : UInt8} (hx : x ∈ (g ++ written parts).head?) :
    isSpace x = true ∨ ∃ m g' more, g = [] ∧ parts = (m, g') :: more ∧ x = m.text.1 := by
  cases g with
  | nil =>
      cases parts with
      | nil => cases hx
      | cons p more => exact Or.inr ⟨p.1, p.2, more, rfl, rfl, (Option.some.inj hx).symm⟩
  | cons b g =>
      obtain rfl : b = x := Option.some.inj hx
      exact Or.inl (hg b List.mem_cons_self)

/-- Lexemes that take turns, with nothing but white space between them. -/
structure Written (parts : List (Lexeme × List UInt8)) : Prop where
  chain : (parts.map Prod.fst).IsChain Lexeme.Follows
  blank : ∀ p ∈ parts, ∀ b ∈ p.2, isSpace b = true

namespace Written

variable {l : Lexeme} {g : List UInt8} {parts : List (Lexeme × List UInt8)}

theorem tail (h : Written ((l, g) :: parts)) : Written parts where
  chain := (List.isChain_cons.mp h.chain).2
  blank := fun p hp => h.blank p (List.mem_cons_of_mem _ hp)

theorem gap (h : Written ((l, g) :: parts)) : ∀ b ∈ g, isSpace b = true :=
  h.blank (l, g) List.mem_cons_self

theorem ends (h : Written ((l, g) :: parts)) (hl : l.isEnd = true) :
    ∀ x ∈ (g ++ written parts).head?, endsOperand x = true := by
  intro x hx
  rcases head_cases h.gap hx with hspace | ⟨m, g', more, rfl, rfl, rfl⟩
  · simp [endsOperand, hspace]
  · have hfollows : m.isStart = !l.isEnd := (List.isChain_cons.mp h.chain).1 m rfl
    exact Lexeme.endsOperand_text (by rw [hfollows, hl]; rfl)

theorem starts (h : Written ((l, g) :: parts)) (hl : l.isEnd = false) :
    ∀ x ∈ (g ++ written parts).head?, startsOperand x = true := by
  intro x hx
  rcases head_cases h.gap hx with hspace | ⟨m, g', more, rfl, rfl, rfl⟩
  · simp [startsOperand, hspace]
  · have hfollows : m.isStart = !l.isEnd := (List.isChain_cons.mp h.chain).1 m rfl
    exact Lexeme.startsOperand_text (by rw [hfollows, hl]; rfl)

theorem point_not_mem (h : Written parts) : 46 ∉ written parts := by
  rw [written, List.mem_flatMap]
  rintro ⟨p, hp, hmem⟩
  rcases List.mem_append.mp hmem with hbytes | hgap
  · exact p.1.point_not_mem hbytes
  · exact absurd (h.blank p hp 46 hgap) (by decide)

theorem not_nonzero (h : Written ((.operator .sub, g) :: parts))
    (habs : absorbs ((.operator .sub, g) :: parts) = false) :
    ∀ x ∈ (g ++ written parts).head?, range 49 57 x = false := by
  intro x hx
  rcases head_cases h.gap hx with hspace | ⟨m, g', more, rfl, rfl, rfl⟩
  · have hmem : x ∈ [32, 9, 13, 10, 11, 12] := by simpa [isSpace] using hspace
    simp only [List.mem_cons, List.not_mem_nil, or_false] at hmem
    rcases hmem with rfl | rfl | rfl | rfl | rfl | rfl <;> rfl
  · have hfollows : m.isStart = true := (List.isChain_cons.mp h.chain).1 m rfl
    cases m with
    | literal l =>
        cases l with
        | zero => rfl
        | decimal first digits hfirst hdigits => cases habs
        | hex x digits hx hne hdigits => rfl
    | operator op => cases hfollows
    | openParen => rfl
    | closeParen => cases hfollows

/-- The first lexeme is cut as it is written, unless it goes with the next one. -/
theorem lexeme_eq (h : Written ((l, g) :: parts)) (habs : absorbs ((l, g) :: parts) = false) :
    lexeme .INITIAL l.text.1 (l.text.2 ++ (g ++ written parts)) =
      (l.text.2.length, l.action) := by
  cases l with
  | literal l =>
      have hends := h.ends rfl
      cases l with
      | zero => exact lexeme_zero hends
      | decimal first digits hfirst hdigits => exact lexeme_decimal hfirst hdigits hends
      | hex x digits hx hne hdigits => exact lexeme_hex hx hne hdigits hends
  | operator op =>
      have hstarts := h.starts rfl
      cases op with
      | add => exact lexeme_punct (by decide) _
      | sub =>
          refine lexeme_minus (fun x hx => ⟨hstarts x hx, h.not_nonzero habs x hx⟩) ?_
          rintro y hy rfl
          have hmem : 46 ∈ g ++ written parts := List.mem_of_mem_tail (List.mem_of_head? hy)
          rcases List.mem_append.mp hmem with hgap | hrest
          · exact absurd (h.gap 46 hgap) (by decide)
          · exact h.tail.point_not_mem hrest
      | mul => exact lexeme_punct (by decide) _
      | div => exact lexeme_slash hstarts
      | mod => exact lexeme_punct (by decide) _
  | openParen => exact lexeme_punct (by decide) _
  | closeParen => exact lexeme_punct (by decide) _

theorem scan_eq (strtof : CString → UInt32) (h : Written parts) (strbuf : List UInt8) :
    (lexer strtof).scan ⟨.INITIAL, strbuf⟩ (written parts) =
      (scanned parts, ⟨.INITIAL, strbuf⟩) := by
  induction parts using scanned.induct with
  | case1 first digits hfirst hdigits g parts ih =>
      have hends := h.tail.ends rfl
      have hlex := lexeme_minus_decimal hfirst hdigits hends
      have htext : written ((.operator .sub, []) ::
          (.literal (.decimal first digits hfirst hdigits), g) :: parts) =
            45 :: (first :: digits ++ (g ++ written parts)) := by
        simp [written, Lexeme.bytes, Lexeme.text, opByte]
      have hstep : (lexer strtof).step ⟨.INITIAL, strbuf⟩ 45
          (first :: digits ++ (g ++ written parts)) =
            (⟨.INITIAL, strbuf⟩, some (.intLiteral (Int32.ofInt (strtolDecimal
              (45 :: first :: digits)))), g ++ written parts) := by
        have hlen : digits.length + 1 = (first :: digits).length := rfl
        rw [List.cons_append, lexer_step hlex, ← List.cons_append, hlen, List.take_left,
          List.drop_left]
        rfl
      rw [htext, Lexer.scan_cons, hstep, scan_gap strbuf h.tail.gap, ih h.tail.tail, scanned]
      rfl
  | case2 l g parts hno ih =>
      have habs : absorbs ((l, g) :: parts) = false := by
        unfold absorbs
        split
        · next first digits hfirst hdigits g' more heq =>
            obtain ⟨⟨rfl, rfl⟩, rfl⟩ : (l = _ ∧ g = []) ∧ parts = _ := by simpa using heq
            exact (hno first digits hfirst hdigits g' more rfl rfl rfl).elim
        · rfl
      have htext : written ((l, g) :: parts) = l.bytes ++ (g ++ written parts) := by
        simp [written]
      rw [htext, scan_lexeme strbuf (h.lexeme_eq habs), scan_gap strbuf h.gap, ih h.tail,
        scanned_cons habs]
  | case3 => rfl

end Written

/-! ## One expression with different gaps -/

theorem absorbs_cases {l : Lexeme} {g : List UInt8} {parts : List (Lexeme × List UInt8)}
    (h : absorbs ((l, g) :: parts) = true) :
    l = .operator .sub ∧ g = [] ∧ ∃ first digits hfirst hdigits g' more,
      parts = (.literal (.decimal first digits hfirst hdigits), g') :: more := by
  unfold absorbs at h
  split at h
  · next first digits hfirst hdigits g' more heq =>
      obtain ⟨⟨rfl, rfl⟩, rfl⟩ : (l = _ ∧ g = []) ∧ parts = _ := by simpa using heq
      exact ⟨rfl, rfl, first, digits, hfirst, hdigits, g', more, rfl⟩
  · cases h

theorem scanned_eq_iff : ∀ {parts other : List (Lexeme × List UInt8)},
    parts.map Prod.fst = other.map Prod.fst →
      (scanned parts = scanned other ↔ absorbed parts = absorbed other)
  | [], [], _ => by simp [scanned, absorbed]
  | [], _ :: _, h => by cases h
  | _ :: _, [], h => by cases h
  | (l, g) :: parts, (m, k) :: other, h => by
      obtain ⟨rfl, hmap⟩ : l = m ∧ parts.map Prod.fst = other.map Prod.fst := by simpa using h
      cases hl : absorbs ((l, g) :: parts) with
      | false =>
          cases hr : absorbs ((l, k) :: other) with
          | false =>
              rw [scanned_cons hl, scanned_cons hr, absorbed, absorbed, hl, hr, List.cons_inj_right,
                List.cons_inj_right]
              exact scanned_eq_iff hmap
          | true =>
              obtain ⟨rfl, rfl, first, digits, hfirst, hdigits, g', more, rfl⟩ := absorbs_cases hr
              rw [scanned_cons hl]
              simp [scanned, absorbed, hl, hr, Lexeme.token]
      | true =>
          obtain ⟨rfl, rfl, first, digits, hfirst, hdigits, g', more, rfl⟩ := absorbs_cases hl
          cases hr : absorbs ((.operator .sub, k) :: other) with
          | false =>
              rw [scanned_cons hr]
              simp [scanned, absorbed, hl, hr, Lexeme.token]
          | true =>
              obtain ⟨-, rfl, second, others, hsecond, hothers, k', rest, rfl⟩ := absorbs_cases hr
              simp only [List.map_cons, List.cons.injEq, Lexeme.literal.injEq,
                SourceLiteral.decimal.injEq] at hmap
              obtain ⟨⟨rfl, rfl⟩, hmore⟩ := hmap
              have hdigit : ∀ gap tail, absorbs ((Lexeme.literal (.decimal first digits hfirst
                  hdigits), gap) :: tail) = false := fun gap tail => rfl
              rw [scanned, scanned, absorbed, absorbed, absorbed, absorbed, hl, hr, hdigit, hdigit]
              simp only [List.cons.injEq, true_and]
              exact scanned_eq_iff hmore

/-- An expression written with white space of any length at any place. -/
structure Spacing (e : SourceExpr) where
  parts : List (Lexeme × List UInt8)
  lexemes_eq : parts.map Prod.fst = e.lexemes
  blank : ∀ p ∈ parts, ∀ b ∈ p.2, isSpace b = true

namespace Spacing

variable {e : SourceExpr}

def text (σ : Spacing e) : List UInt8 := written σ.parts

theorem written (σ : Spacing e) : Written σ.parts where
  chain := σ.lexemes_eq ▸ e.lexemes_chain.1
  blank := σ.blank

theorem tokens_eq (σ : Spacing e) : tokens strtof σ.text = scanned σ.parts := by
  have hscan := σ.written.scan_eq strtof []
  exact congrArg Prod.fst hscan

/-- The same white space behind every lexeme. -/
def even (e : SourceExpr) (g : List UInt8) (hg : ∀ b ∈ g, isSpace b = true) : Spacing e where
  parts := e.lexemes.map fun l => (l, g)
  lexemes_eq := by simp [Function.comp_def]
  blank := by
    intro p hp
    obtain ⟨l, -, rfl⟩ := List.mem_map.mp hp
    exact hg

def tight (e : SourceExpr) : Spacing e := even e [] (by simp)

def loose (e : SourceExpr) : Spacing e := even e [32] (List.forall_mem_singleton.mpr rfl)

end Spacing

theorem not_mem_absorbed_loose (lexemes : List Lexeme) :
    true ∉ absorbed (lexemes.map fun l => (l, [32])) := by
  induction lexemes with
  | nil => simp [absorbed]
  | cons l lexemes ih =>
      have hhead : absorbs ((l, [32]) :: lexemes.map fun l => (l, [32])) = false := by
        rw [← Bool.not_eq_true]
        intro habs
        obtain ⟨-, hnil, -⟩ := absorbs_cases habs
        cases hnil
      rw [List.map_cons, absorbed, hhead, List.mem_cons, not_or]
      exact ⟨by decide, ih⟩

/-- White space can only part a sign from its digits. -/
theorem mem_absorbed_tight {parts : List (Lexeme × List UInt8)} (h : true ∈ absorbed parts) :
    true ∈ absorbed ((parts.map Prod.fst).map fun l => (l, [])) := by
  induction parts with
  | nil => cases h
  | cons p parts ih =>
      rw [absorbed, List.mem_cons] at h
      rw [List.map_cons, List.map_cons, absorbed, List.mem_cons]
      rcases h with hhead | htail
      · obtain ⟨hl, -, first, digits, hfirst, hdigits, g', more, rfl⟩ := absorbs_cases hhead.symm
        left
        rw [hl]
        rfl
      · exact Or.inr (ih htail)

theorem length_absorbed (parts : List (Lexeme × List UInt8)) :
    (absorbed parts).length = parts.length := by
  induction parts with
  | nil => rfl
  | cons p parts ih => simp [absorbed, ih]

/-- Two texts of one expression have the same tokens exactly where the same minus
signs stand directly before digits, and all texts have them exactly where no minus
sign can. -/
theorem spacing_irrelevant_iff (strtof : CString → UInt32) (e : SourceExpr) :
    (∀ first second : Spacing e, tokens strtof first.text = tokens strtof second.text ↔
      absorbed first.parts = absorbed second.parts) ∧
    ((∀ first second : Spacing e, tokens strtof first.text = tokens strtof second.text) ↔
      true ∉ absorbed (Spacing.tight e).parts) := by
  have hpair : ∀ first second : Spacing e,
      tokens strtof first.text = tokens strtof second.text ↔
        absorbed first.parts = absorbed second.parts := by
    intro first second
    rw [first.tokens_eq, second.tokens_eq]
    exact scanned_eq_iff (first.lexemes_eq.trans second.lexemes_eq.symm)
  refine ⟨hpair, ⟨?_, ?_⟩⟩
  · intro hall hmem
    rw [(hpair _ _).mp (hall (.tight e) (.loose e))] at hmem
    exact not_mem_absorbed_loose e.lexemes hmem
  · intro hnone first second
    have hfalse : ∀ σ : Spacing e, absorbed σ.parts = List.replicate e.lexemes.length false := by
      intro σ
      rw [List.eq_replicate_iff, length_absorbed, ← σ.lexemes_eq, List.length_map]
      refine ⟨rfl, fun b hb => ?_⟩
      cases b with
      | false => rfl
      | true =>
          have htight := mem_absorbed_tight hb
          rw [σ.lexemes_eq] at htight
          exact absurd htight hnone
    exact (hpair first second).mpr ((hfalse first).trans (hfalse second).symm)

def fiveMinusThree : SourceExpr :=
  .binary .sub (.literal (.decimal 53 [] (by decide) (by simp)))
    (.literal (.decimal 51 [] (by decide) (by simp)))

/-- `5-3` has two tokens and `5 - 3 ` three. -/
theorem not_spacing_irrelevant : ¬ ∀ strtof : CString → UInt32, ∀ first second :
    Spacing fiveMinusThree, tokens strtof first.text = tokens strtof second.text := by
  intro hall
  have heq := hall (fun _ => 0) (.tight fiveMinusThree) (.loose fiveMinusThree)
  rw [Spacing.tokens_eq, Spacing.tokens_eq] at heq
  have hlen := congrArg List.length heq
  cases hlen

end SimpleVm.Scanner
