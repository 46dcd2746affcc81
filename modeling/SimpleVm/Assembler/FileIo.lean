import SimpleVm.Assembler.Scanner

/-!
# The file stack

The scanner reads from the file on top of the stack. At the end of a file the
rule for it pops the stack and leaves the start condition as it is, and the
parser opens a file when it reduces an `include`, before it asks for the next
token. An `include` is the keyword and a string, so the parser only has to
remember whether it has just been given the keyword.
-/

namespace SimpleVm

/-- What the finder and `fopen` get from the environment. -/
structure FileSystem where
  /-- The directories of `common_env`. -/
  commonEnv : List CString
  /-- Whether `stat` succeeds. -/
  fileExists : CString → Bool
  /-- The bytes of a file that can be opened. -/
  fopen : CString → Option (List UInt8)

structure FileT where
  name : CString
  line : ℕ
  column : ℕ
  /-- What flex has not read yet. -/
  buffer : List UInt8
  deriving DecidableEq

namespace FileIo

/-! ## Finding a file -/

def posixPathMax : ℕ := 256

/-- The text from the last `c` on. -/
def strrchr (s : CString) (c : UInt8) : Option (List UInt8) :=
  if c ∈ s.bytes then some (c :: (s.bytes.reverse.takeWhile (· ≠ c)).reverse) else none

/-- The name with its extension, in a block of `_POSIX_PATH_MAX` bytes when it is appended. -/
def tmpName (fname ext : CString) : Except Halt CString :=
  if strrchr fname 46 = some ext.bytes then .ok fname
  else if (fname.append ext).strlen < posixPathMax then .ok (fname.append ext)
  else .error .invalidAccess

def slash : CString := ⟨[47], by decide⟩

/-- The path is put together in the static `buffer`, for one directory after the other. -/
def searchEnv (fs : FileSystem) (name : CString) : List CString → Except Halt (Option CString)
  | [] => .ok none
  | dir :: dirs =>
      let buffer := (dir.append slash).append name
      if buffer.strlen < posixPathMax then
        if fs.fileExists buffer then .ok (some buffer) else searchEnv fs name dirs
      else .error .invalidAccess

/-- The name itself, without an extension, is the answer when nothing is found. -/
def findFile (fs : FileSystem) (fname ext : CString) : Except Halt CString := do
  let name ← tmpName fname ext
  let found ← searchEnv fs name fs.commonEnv
  .ok (found.getD fname)

/-! ## The stack -/

def getFileBuffer (fileStack : List FileT) : Option FileT := fileStack.head?

def pushFileBuffer (ptr : FileT) (fileStack : List FileT) : List FileT := ptr :: fileStack

def popFileBuffer (fileStack : List FileT) : List FileT := fileStack.tail

/-- The file that `open_file` pushes. -/
def createFile (fs : FileSystem) (name ext : CString) : Except Halt FileT := do
  let fn ← findFile fs name ext
  match fs.fopen fn with
  | none => .error .fatal
  | some text => .ok ⟨fn, 1, 1, text⟩

def openFile (fs : FileSystem) (name ext : CString) (fileStack : List FileT) :
    Except Halt (List FileT) := do
  let ptr ← createFile fs name ext
  .ok (pushFileBuffer ptr fileStack)

/-- `YY_USER_ACTION`, which counts in `yytext` as a string. -/
def updateNumbers (yytext : List UInt8) (ptr : FileT) : FileT :=
  let count := (CString.read yytext).bytes.count 10
  if count ≠ 0 then { ptr with line := ptr.line + count, column := 1 }
  else { ptr with column := ptr.column + yytext.length }

/-! ## Scanner and parser -/

/-- The extension `.asm`. -/
def asmExt : CString := ⟨[46, 97, 115, 109], by decide⟩

structure InputState where
  scanner : ScannerState
  fileStack : List FileT
  /-- Whether the last token was the keyword of an `include`. -/
  includeSeen : Bool
  deriving DecidableEq

/-- The action of the `include` rule, when the token completes it. -/
def reduceInclude (fs : FileSystem) (includeSeen : Bool) (t : Token) (fileStack : List FileT) :
    Except Halt (List FileT) :=
  match includeSeen, t with
  | true, .strgLiteral strg => openFile fs strg asmExt fileStack
  | _, _ => .ok fileStack

/-- One lexeme or the end of one file, and the token that the parser gets.
There is no step when no file is left or `open_file` does not return. -/
def step (fs : FileSystem) (strtof : CString → UInt32) (c : InputState) :
    Option (Option Token × InputState) :=
  match getFileBuffer c.fileStack with
  | none => none
  | some ptr =>
      match ptr.buffer with
      -- `<<EOF>>`, in every start condition
      | [] => some (none, { c with fileStack := popFileBuffer c.fileStack })
      | b :: input =>
          let (scanner, token, rest) := (Scanner.lexer strtof).step c.scanner b input
          let ptr := updateNumbers (Scanner.yytext c.scanner.start b input)
            { ptr with buffer := rest }
          let fileStack := ptr :: c.fileStack.tail
          match token with
          | none => some (none, { c with scanner := scanner, fileStack := fileStack })
          | some t =>
              match reduceInclude fs c.includeSeen t fileStack with
              | .ok fileStack => some (some t, ⟨scanner, fileStack, t == .keyword .INCLUDE⟩)
              | .error _ => none

/-- Some number of steps, and the tokens that the parser gets in them. -/
inductive Reaches (fs : FileSystem) (strtof : CString → UInt32) :
    InputState → List Token → InputState → Prop
  | refl (c) : Reaches fs strtof c [] c
  | head {c t c' ts last} (hstep : step fs strtof c = some (t, c'))
      (hrest : Reaches fs strtof c' ts last) : Reaches fs strtof c (t.toList ++ ts) last

def start (main : FileT) : InputState := ⟨Scanner.initial, [main], false⟩

/-- The parser gets these tokens before the end of the main file. -/
def Delivers (fs : FileSystem) (strtof : CString → UInt32) (main : FileT) (ts : List Token) :
    Prop :=
  ∃ last, last.fileStack = [] ∧ Reaches fs strtof (start main) ts last

end FileIo

end SimpleVm
