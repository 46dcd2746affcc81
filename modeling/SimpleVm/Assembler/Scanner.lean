import SimpleVm.Common.StringBuffer
import SimpleVm.Lib.Lexing

/-!
# The scanner

The rules of each start condition are in the order of the source, and the
scanner is generated to ignore case. A byte that no rule matches is echoed.
The value of a floating point literal is left to `strtof`, which stands for
`(float)strtod`. Of `strbuf` the characters are kept here, and not its block.
-/

namespace SimpleVm

inductive Keyword where
  | INCLUDE | DATA | EXTERN | INT | UINT | FLOAT | STRG
  | MOV | PUSH | POP | CPY
  | LT | GT | LTE | GTE | EQ | NEQ | SETF | CLRF
  | CALL | JMP | RET
  | CALLT | JMPT | RETT
  | CALLF | JMPF | RETF
  | ADD | SUB | MUL | DIV | MOD
  | ADDI | SUBI | MULI | DIVI | MODI
  | ADDU | SUBU | MULU | DIVU | MODU
  | ADDF | SUBF | MULF | DIVF | MODF
  | EXIT | ABORT | NOP
  | SP
  deriving DecidableEq

inductive Token where
  | keyword (k : Keyword)
  | register (n : ℕ)
  | punct (c : UInt8)
  | intLiteral (ival : Int32)
  | uintLiteral (uval : UInt32)
  | floatLiteral (fval : UInt32)
  | name (strg : CString)
  | strgLiteral (strg : CString)
  deriving DecidableEq

inductive StartCondition where
  | INITIAL
  | LCOMMENT
  | BCOMMENT
  | DQUOTE
  | SQUOTE
  deriving DecidableEq

/-- `strbuf` is `NULL` until the first quote, which creates or clears it. -/
structure ScannerState where
  start : StartCondition
  strbuf : List UInt8
  deriving DecidableEq

namespace Scanner

/-! ## Patterns -/

/-- Lower case, for letters of ASCII only. -/
def fold (b : UInt8) : UInt8 := if 65 ≤ b ∧ b ≤ 90 then b + 32 else b

def byte (c : UInt8) : Regex UInt8 := .one fun b => fold b == fold c

def range (first last : UInt8) : UInt8 → Bool := fun b => first ≤ b && b ≤ last

def digit : Regex UInt8 := .one (range 48 57)

def nonzeroDigit : Regex UInt8 := .one (range 49 57)

def isHexDigit (b : UInt8) : Bool := range 48 57 b || range 97 102 (fold b)

def hexDigit : Regex UInt8 := .one isHexDigit

/-- The pattern `.`: any byte but a newline. -/
def any : Regex UInt8 := .one (· != 10)

def oneOf (bytes : List UInt8) : Regex UInt8 := .one fun b => bytes.contains b

def noneOf (bytes : List UInt8) : Regex UInt8 := .one fun b => !bytes.contains b

def sequence (rs : List (Regex UInt8)) : Regex UInt8 := rs.foldr .seq .empty

def word (text : String) : Regex UInt8 := sequence (text.toList.map fun c => byte c.toUInt8)

def blanks : Regex UInt8 := .star (oneOf [32, 9])

def decimal : Regex UInt8 := .seq nonzeroDigit (.star digit)

/-- A quote, the end of the line behind a backslash, and the quote again. -/
def continuation (quote : String) : Regex UInt8 :=
  sequence [word quote, blanks, word "\\", blanks, word "\n", blanks, word quote]

/-! ## Rules -/

inductive Action where
  | ret (t : Token)
  | intLiteral
  | uintLiteral
  | floatLiteral
  | name
  | begin (start : StartCondition)
  /-- Creates or clears `strbuf` before `BEGIN`. -/
  | openQuote (start : StartCondition)
  | closeQuote
  | appendChar (ch : ℤ)
  /-- `append_string_char(strbuf, yytext[1])`. -/
  | appendSecond
  | appendHex
  | appendText
  | invalidCharacter
  | ignore
  | echo
  deriving DecidableEq

def keyword (text : String) (k : Keyword) : LexRule UInt8 Action :=
  ⟨word text, .ret (.keyword k)⟩

def keyword₂ (text text' : String) (k : Keyword) : LexRule UInt8 Action :=
  ⟨.alt (word text) (word text'), .ret (.keyword k)⟩

/-- The register below ten can be written with a zero. -/
def register (n : ℕ) : LexRule UInt8 Action where
  pattern :=
    let tens := byte (UInt8.ofNat (48 + n / 10))
    let ones := byte (UInt8.ofNat (48 + n % 10))
    if n < 10 then .alt (sequence [byte 114, ones]) (sequence [byte 114, byte 48, ones])
    else sequence [byte 114, tens, ones]
  action := .ret (.register n)

def punct (c : UInt8) : LexRule UInt8 Action := ⟨byte c, .ret (.punct c)⟩

def keywordRules : List (LexRule UInt8 Action) :=
  [keyword "include" .INCLUDE, keyword "data" .DATA, keyword "extern" .EXTERN,
    keyword "int" .INT, keyword "uint" .UINT, keyword "float" .FLOAT, keyword "strg" .STRG,
    keyword₂ "mov" "move" .MOV, keyword "push" .PUSH, keyword "pop" .POP,
    keyword₂ "cpy" "copy" .CPY,
    keyword "lt" .LT, keyword "gt" .GT, keyword "lte" .LTE, keyword "gte" .GTE,
    keyword "eq" .EQ, keyword "neq" .NEQ, keyword "setf" .SETF, keyword "clrf" .CLRF,
    keyword "call" .CALL, keyword "jmp" .JMP, keyword "ret" .RET,
    keyword "callt" .CALLT, keyword "jmpt" .JMPT, keyword "rett" .RETT,
    keyword "callf" .CALLF, keyword "jmpf" .JMPF, keyword "retf" .RETF,
    keyword "add" .ADD, keyword "sub" .SUB, keyword "mul" .MUL, keyword "div" .DIV,
    keyword "mod" .MOD,
    keyword "addi" .ADDI, keyword "subi" .SUBI, keyword "muli" .MULI, keyword "divi" .DIVI,
    keyword "modi" .MODI,
    keyword "addu" .ADDU, keyword "subu" .SUBU, keyword "mulu" .MULU, keyword "divu" .DIVU,
    keyword "modu" .MODU,
    keyword "addf" .ADDF, keyword "subf" .SUBF, keyword "mulf" .MULF, keyword "divf" .DIVF,
    keyword "modf" .MODF,
    keyword "exit" .EXIT, keyword "abort" .ABORT, keyword "nop" .NOP]

def registerRules : List (LexRule UInt8 Action) :=
  (List.range 32).map (fun i => register (i + 1)) ++ [keyword "sp" .SP]

def punctRules : List (LexRule UInt8 Action) :=
  -- [ ] ( ) : = { } + - / * % ,
  [91, 93, 40, 41, 58, 61, 123, 125, 43, 45, 47, 42, 37, 44].map punct

def literalRules : List (LexRule UInt8 Action) :=
  [⟨.alt (.seq (.opt (byte 45)) decimal) (byte 48), .intLiteral⟩,
    ⟨sequence [word "0x", .plus hexDigit], .uintLiteral⟩,
    ⟨sequence [.opt (byte 45), .alt (byte 48) decimal, byte 46, .star digit,
      .opt (sequence [byte 101, .opt (oneOf [45, 43]), decimal])], .floatLiteral⟩,
    ⟨.seq (.one fun b => range 97 122 (fold b) || b == 95)
      (.star (.one fun b => range 97 122 (fold b) || b == 95 || range 48 57 b)), .name⟩]

def initialRules : List (LexRule UInt8 Action) :=
  keywordRules ++ registerRules ++ punctRules ++ literalRules ++
    [⟨word "\"", .openQuote .DQUOTE⟩, ⟨word "'", .openQuote .SQUOTE⟩,
      ⟨word "//", .begin .LCOMMENT⟩, ⟨word "/*", .begin .BCOMMENT⟩,
      ⟨.plus (oneOf [32, 9, 13, 10, 11, 12]), .ignore⟩, ⟨any, .invalidCharacter⟩]

def escape (text : String) (ch : ℤ) : LexRule UInt8 Action := ⟨word text, .appendChar ch⟩

def hexRule : LexRule UInt8 Action where
  pattern :=
    sequence [word "\\x", hexDigit, .opt (.seq hexDigit (.opt (.seq hexDigit (.opt hexDigit))))]
  action := .appendHex

def dquoteRules : List (LexRule UInt8 Action) :=
  [⟨word "\n", .begin .INITIAL⟩,
    escape "\\n" 10, escape "\\r" 13, escape "\\t" 9, escape "\\v" 11, escape "\\a" 7,
    escape "\\b" 8, escape "\\f" 12, escape "\\e" 27, escape "\\\"" 34,
    ⟨sequence [word "\\", any], .appendSecond⟩,
    hexRule,
    ⟨continuation "\"", .ignore⟩,
    ⟨.plus (noneOf [92, 10, 34]), .appendText⟩,
    ⟨word "\"", .closeQuote⟩]

def squoteRules : List (LexRule UInt8 Action) :=
  [⟨continuation "'", .ignore⟩,
    ⟨word "\n", .begin .INITIAL⟩,
    ⟨word "\\", .appendChar 92⟩,
    ⟨.plus (noneOf [92, 10, 39]), .appendText⟩,
    ⟨word "'", .closeQuote⟩]

def rules : StartCondition → List (LexRule UInt8 Action)
  | .INITIAL => initialRules
  | .LCOMMENT => [⟨any, .ignore⟩, ⟨oneOf [10, 13], .begin .INITIAL⟩]
  | .BCOMMENT => [⟨oneOf [10, 13], .ignore⟩, ⟨any, .ignore⟩, ⟨word "*/", .begin .INITIAL⟩]
  | .DQUOTE => dquoteRules
  | .SQUOTE => squoteRules

/-! ## Actions -/

def digitValue (b : UInt8) : ℕ := if b < 58 then b.toNat - 48 else (fold b).toNat - 87

/-- The number that `strtol` reads from a text of digits, at most `LONG_MAX`. -/
def strtolDigits (base : ℕ) (digits : List UInt8) : ℤ :=
  min (2 ^ 63 - 1) (digits.foldl (fun n b => base * n + digitValue b) 0 : ℕ)

/-- `strtol(yytext, NULL, 10)` on a text of the rule for integers. -/
def strtolDecimal : List UInt8 → ℤ
  | 45 :: digits => -min (2 ^ 63) (digits.foldl (fun n b => 10 * n + digitValue b) 0 : ℕ)
  | digits => strtolDigits 10 digits

/-- `strcat` on `strbuf`, which writes at the first NUL. -/
def appendString (strbuf : List UInt8) (str : CString) : List UInt8 :=
  (CString.read strbuf).bytes ++ str.bytes

def perform (strtof : CString → UInt32) (yytext : List UInt8) (s : ScannerState) :
    Action → ScannerState × Option Token
  | .ret t => (s, some t)
  | .intLiteral => (s, some (.intLiteral (Int32.ofInt (strtolDecimal yytext))))
  | .uintLiteral =>
      -- the base is 16, so `strtol` passes over the leading `0x`
      (s, some (.uintLiteral (UInt32.ofNat (strtolDigits 16 (yytext.drop 2)).toNat)))
  | .floatLiteral => (s, some (.floatLiteral (strtof (CString.read yytext))))
  | .name => (s, some (.name (CString.read yytext)))
  | .begin start => ({ s with start := start }, none)
  | .openQuote start => (⟨start, []⟩, none)
  | .closeQuote => ({ s with start := .INITIAL }, some (.strgLiteral (CString.read s.strbuf)))
  | .appendChar ch => ({ s with strbuf := s.strbuf ++ [charOf ch] }, none)
  | .appendSecond => ({ s with strbuf := s.strbuf ++ (yytext.drop 1).take 1 }, none)
  | .appendHex =>
      ({ s with strbuf := s.strbuf ++ [charOf (strtolDigits 16 (yytext.drop 2))] }, none)
  | .appendText => ({ s with strbuf := appendString s.strbuf (CString.read yytext) }, none)
  | .invalidCharacter => (s, none)
  | .ignore => (s, none)
  | .echo => (s, none)

/-! ## One lexeme -/

/-- How many bytes of the lexeme stand behind its first byte, and its action. -/
def lexeme (start : StartCondition) (c : UInt8) (input : List UInt8) : ℕ × Action :=
  match firstLongest (rules start) (c :: input) with
  | some (n + 1, action) => (n, action)
  | _ => (0, .echo)

def yytext (start : StartCondition) (c : UInt8) (input : List UInt8) : List UInt8 :=
  c :: input.take (lexeme start c input).1

def lexer (strtof : CString → UInt32) : Lexer UInt8 ScannerState Token where
  step s c input :=
    let (s', t) := perform strtof (yytext s.start c input) s (lexeme s.start c input).2
    (s', t, input.drop (lexeme s.start c input).1)
  length_rest_le s c input := by
    rw [List.length_drop]
    exact Nat.sub_le _ _

def initial : ScannerState := ⟨.INITIAL, []⟩

def tokens (strtof : CString → UInt32) (text : List UInt8) : List Token :=
  ((lexer strtof).scan initial text).1

def endCondition (strtof : CString → UInt32) (text : List UInt8) : StartCondition :=
  ((lexer strtof).scan initial text).2.start

end Scanner

end SimpleVm
