import SimpleVm.Assembler.Spacing
import SimpleVm.Lib.OperatorPrecedence

/-!
# The grammar of the assembler

Every production is a constructor, and the fringe of a tree is the tokens
that the grammar derives from it. The grammar alone leaves an index expression
without parentheses open; the levels of its operators settle it. Actions run
where a production is reduced, and get the values of its parts.
-/

namespace SimpleVm.Syntax

open SimpleVm.Parser (IndexConstant IndexOp)

/-! ## Trees -/

/-- `vm_registers_t`: the registers from `R01` to `R32`, and then `SP`. -/
abbrev Register := Fin 33

abbrev IndexExpr := OperatorPrecedence.Tree IndexConstant IndexOp

inductive Mode1 where
  | register (r : Register)
  | registerIndex (r : Register) (index : Option IndexExpr)
  | name (strg : CString)

inductive Mode2 where
  | mode1 (mode : Mode1)
  | indexConstant (c : IndexConstant)

inductive Mode3 where
  | mode2 (mode : Mode2)
  | float (fval : UInt32)

def arithInstr : List Keyword :=
  [.ADD, .ADDI, .ADDU, .ADDF, .SUB, .SUBI, .SUBU, .SUBF, .MUL, .MULI, .MULU, .MULF,
    .DIV, .DIVI, .DIVU, .DIVF, .MOD, .MODI, .MODU, .MODF]

def ctrlInstr : List Keyword :=
  [.CALL, .CALLT, .CALLF, .JMP, .JMPT, .JMPF, .RET, .RETT, .RETF]

def compInstr : List Keyword := [.LT, .GT, .LTE, .GTE, .EQ, .NEQ]

/-- The instructions that can stand alone. -/
def plainInstr : List Keyword := [.SETF, .CLRF, .EXIT, .ABORT, .NOP]

abbrev ArithInstr := { k // k ∈ arithInstr }

abbrev CtrlInstr := { k // k ∈ ctrlInstr }

abbrev CompInstr := { k // k ∈ compInstr }

abbrev PlainInstr := { k // k ∈ plainInstr }

inductive AssemblerInstruction where
  | mov (dst : Mode1) (src : Mode3)
  | push (src : Mode3)
  | pop (dst : Mode1)
  | cpy (dst : Mode1) (src : Register) (count : IndexConstant)
  | arith (k : ArithInstr) (dst : Mode1) (lhs rhs : Register)
  | ctrl (k : CtrlInstr) (dst : Mode1)
  | comp (k : CompInstr) (lhs rhs : Mode2)
  | plain (k : PlainInstr)
  | exit (code : IndexConstant)
  | externStrg (strg : CString)

inductive VarConstant where
  | indexConstant (c : IndexConstant)
  | float (fval : UInt32)
  | strg (val : CString)

inductive VarDef where
  | slot (name : CString)
  | slots (name : CString) (k : IndexConstant)
  | init (name : CString) (c : VarConstant)
  | inits (name : CString) (first : VarConstant) (rest : List VarConstant)

inductive Instruction where
  | assembler (instr : AssemblerInstruction)
  | varDef (d : VarDef)
  | label (name : CString)
  | includeFile (name : CString)

/-! ## Fringes -/

@[match_pattern] abbrev lbracket : Token := .punct 91
@[match_pattern] abbrev rbracket : Token := .punct 93
@[match_pattern] abbrev lbrace : Token := .punct 123
@[match_pattern] abbrev rbrace : Token := .punct 125
@[match_pattern] abbrev colon : Token := .punct 58
@[match_pattern] abbrev equals : Token := .punct 61
@[match_pattern] abbrev comma : Token := .punct 44

def registerToken (r : Register) : Token :=
  if r = 32 then .keyword .SP else .register (r + 1)

def constantToken : IndexConstant → Token
  | .int val => .intLiteral val
  | .uint val => .uintLiteral val

def lexemeToken : OperatorPrecedence.Lexeme IndexConstant IndexOp → Token
  | .leaf c => constantToken c
  | .operator op => .punct (Scanner.opByte op)
  | .openParen => .punct 40
  | .closeParen => .punct 41

def indexFringe (expr : IndexExpr) : List Token := expr.fringe.map lexemeToken

def Mode1.fringe : Mode1 → List Token
  | .register r => [registerToken r]
  | .registerIndex r none => [registerToken r, lbracket, rbracket]
  | .registerIndex r (some expr) => registerToken r :: lbracket :: (indexFringe expr ++ [rbracket])
  | .name strg => [.name strg]

def Mode2.fringe : Mode2 → List Token
  | .mode1 mode => mode.fringe
  | .indexConstant c => [constantToken c]

def Mode3.fringe : Mode3 → List Token
  | .mode2 mode => mode.fringe
  | .float fval => [.floatLiteral fval]

def AssemblerInstruction.fringe : AssemblerInstruction → List Token
  | .mov dst src => .keyword .MOV :: (dst.fringe ++ comma :: src.fringe)
  | .push src => .keyword .PUSH :: src.fringe
  | .pop dst => .keyword .POP :: dst.fringe
  | .cpy dst src count =>
      .keyword .CPY :: (dst.fringe ++ [comma, registerToken src, comma, constantToken count])
  | .arith k dst lhs rhs =>
      .keyword k.1 :: (dst.fringe ++ [comma, registerToken lhs, comma, registerToken rhs])
  | .ctrl k dst => .keyword k.1 :: dst.fringe
  | .comp k lhs rhs => .keyword k.1 :: (lhs.fringe ++ comma :: rhs.fringe)
  | .plain k => [.keyword k.1]
  | .exit code => [.keyword .EXIT, constantToken code]
  | .externStrg strg => [.keyword .EXTERN, .strgLiteral strg]

def VarConstant.token : VarConstant → Token
  | .indexConstant c => constantToken c
  | .float fval => .floatLiteral fval
  | .strg val => .strgLiteral val

def VarDef.fringe : VarDef → List Token
  | .slot name => [.keyword .DATA, .name name]
  | .slots name k => [.keyword .DATA, .name name, lbracket, constantToken k, rbracket]
  | .init name c => [.keyword .DATA, .name name, equals, c.token]
  | .inits name first rest =>
      .keyword .DATA :: .name name :: equals :: lbrace :: first.token ::
        (rest.flatMap (fun c => [comma, c.token]) ++ [rbrace])

def Instruction.fringe : Instruction → List Token
  | .assembler instr => instr.fringe
  | .varDef d => d.fringe
  | .label name => [.name name, colon]
  | .includeFile name => [.keyword .INCLUDE, .strgLiteral name]

def fringe (source : List Instruction) : List Token := source.flatMap Instruction.fringe

/-! ## Precedence -/

/-- `%left '+' '-'`, and behind it `%left '*' '/' '%'`. -/
def level : IndexOp → ℕ
  | .add => 1
  | .sub => 1
  | .mul => 2
  | .div => 2
  | .mod => 2

def Mode1.Ordered : Mode1 → Prop
  | .registerIndex _ (some expr) => expr.Ordered level
  | _ => True

def Mode2.Ordered : Mode2 → Prop
  | .mode1 mode => mode.Ordered
  | _ => True

def Mode3.Ordered : Mode3 → Prop
  | .mode2 mode => mode.Ordered
  | _ => True

def AssemblerInstruction.Ordered : AssemblerInstruction → Prop
  | .mov dst src => dst.Ordered ∧ src.Ordered
  | .push src => src.Ordered
  | .pop dst => dst.Ordered
  | .cpy dst _ _ => dst.Ordered
  | .arith _ dst _ _ => dst.Ordered
  | .ctrl _ dst => dst.Ordered
  | .comp _ lhs rhs => lhs.Ordered ∧ rhs.Ordered
  | _ => True

def Instruction.Ordered : Instruction → Prop
  | .assembler instr => instr.Ordered
  | _ => True

/-- A parse of the tokens: a module is a list of instructions that is not empty. -/
structure Derives (ts : List Token) (source : List Instruction) : Prop where
  ne_nil : source ≠ []
  ordered : ∀ i ∈ source, i.Ordered
  fringe_eq : fringe source = ts

/-! ## Actions -/

/-- What is done where a production is reduced. -/
structure Actions (m : Type → Type) where
  Const : Type
  Expr : Type
  Mode1 : Type
  Mode2 : Type
  Mode3 : Type
  VarConst : Type
  VarConsts : Type
  Instr : Type
  indexConstant : IndexConstant → m Const
  exprConstant : Const → m Expr
  exprBinary : IndexOp → Expr → Expr → m Expr
  exprParen : Expr → m Expr
  mode1Register : Register → m Mode1
  mode1Index : Register → Option Expr → m Mode1
  mode1Name : CString → m Mode1
  mode2Mode1 : Mode1 → m Mode2
  mode2Constant : Const → m Mode2
  mode3Mode2 : Mode2 → m Mode3
  mode3Float : UInt32 → m Mode3
  varIndex : Const → m VarConst
  varFloat : UInt32 → m VarConst
  varStrg : CString → m VarConst
  createList : VarConst → m VarConsts
  addToList : VarConsts → VarConst → m VarConsts
  slot : CString → m Instr
  slots : CString → Const → m Instr
  init : CString → VarConst → m Instr
  inits : CString → VarConsts → m Instr
  mov : Mode1 → Mode3 → m Instr
  push : Mode3 → m Instr
  pop : Mode1 → m Instr
  cpy : Mode1 → Register → Const → m Instr
  arith : ArithInstr → Mode1 → Register → Register → m Instr
  ctrl : CtrlInstr → Mode1 → m Instr
  comp : CompInstr → Mode2 → Mode2 → m Instr
  plain : PlainInstr → m Instr
  exit : Const → m Instr
  externStrg : CString → m Instr
  label : CString → m Instr
  includeFile : CString → m Instr

section Eval

variable {m : Type → Type} [Monad m] (act : Actions m)

def Actions.expr : OperatorPrecedence.Actions IndexConstant IndexOp act.Expr m where
  leaf c := do
    let c ← act.indexConstant c
    act.exprConstant c
  binary := act.exprBinary
  paren := act.exprParen

def Mode1.eval : Mode1 → m act.Mode1
  | .register r => act.mode1Register r
  | .registerIndex r none => act.mode1Index r none
  | .registerIndex r (some expr) => do
      let e ← expr.eval act.expr
      act.mode1Index r (some e)
  | .name strg => act.mode1Name strg

def Mode2.eval : Mode2 → m act.Mode2
  | .mode1 mode => do
      let v ← mode.eval act
      act.mode2Mode1 v
  | .indexConstant c => do
      let c ← act.indexConstant c
      act.mode2Constant c

def Mode3.eval : Mode3 → m act.Mode3
  | .mode2 mode => do
      let v ← mode.eval act
      act.mode3Mode2 v
  | .float fval => act.mode3Float fval

def AssemblerInstruction.eval : AssemblerInstruction → m act.Instr
  | .mov dst src => do
      let dst ← dst.eval act
      let src ← src.eval act
      act.mov dst src
  | .push src => do
      let src ← src.eval act
      act.push src
  | .pop dst => do
      let dst ← dst.eval act
      act.pop dst
  | .cpy dst src count => do
      let dst ← dst.eval act
      let count ← act.indexConstant count
      act.cpy dst src count
  | .arith k dst lhs rhs => do
      let dst ← dst.eval act
      act.arith k dst lhs rhs
  | .ctrl k dst => do
      let dst ← dst.eval act
      act.ctrl k dst
  | .comp k lhs rhs => do
      let lhs ← lhs.eval act
      let rhs ← rhs.eval act
      act.comp k lhs rhs
  | .plain k => act.plain k
  | .exit code => do
      let code ← act.indexConstant code
      act.exit code
  | .externStrg strg => act.externStrg strg

def VarConstant.eval : VarConstant → m act.VarConst
  | .indexConstant c => do
      let c ← act.indexConstant c
      act.varIndex c
  | .float fval => act.varFloat fval
  | .strg val => act.varStrg val

/-- The constants of a list behind the first. -/
def evalMore (vs : act.VarConsts) : List VarConstant → m act.VarConsts
  | [] => pure vs
  | c :: rest => do
      let v ← c.eval act
      let vs ← act.addToList vs v
      evalMore vs rest

def VarDef.eval : VarDef → m act.Instr
  | .slot name => act.slot name
  | .slots name k => do
      let k ← act.indexConstant k
      act.slots name k
  | .init name c => do
      let v ← c.eval act
      act.init name v
  | .inits name first rest => do
      let v ← first.eval act
      let vs ← act.createList v
      let vs ← evalMore act vs rest
      act.inits name vs

def Instruction.eval : Instruction → m act.Instr
  | .assembler instr => instr.eval act
  | .varDef d => d.eval act
  | .label name => act.label name
  | .includeFile name => act.includeFile name

end Eval

end SimpleVm.Syntax
