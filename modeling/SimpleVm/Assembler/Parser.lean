import SimpleVm.Assembler.Symbols
import SimpleVm.VmCommon.DataBuffer

/-!
# The actions of the parser

A source is the list of instructions that the grammar finds in it. The
actions run in the order of the reductions and share the globals of the
parser. The constant rules build data items whose addresses are taken for
their values where a rule expects a number.
-/

namespace SimpleVm.Parser

/-! ## Sources -/

/-- `INT_LITERAL` or `UINT_LITERAL`. -/
inductive IndexConstant where
  | int (val : Int32)
  | uint (val : UInt32)
  deriving DecidableEq

inductive IndexOp where
  | add
  | sub
  | mul
  | div
  | mod
  deriving DecidableEq

inductive IndexExpr where
  | const (c : IndexConstant)
  | binary (op : IndexOp) (lhs rhs : IndexExpr)
  | paren (expr : IndexExpr)
  deriving DecidableEq

inductive Mode1 where
  | register
  | registerIndex (index : Option IndexExpr)
  | name
  deriving DecidableEq

inductive Mode2 where
  | mode1 (mode : Mode1)
  | const (c : IndexConstant)
  deriving DecidableEq

inductive Mode3 where
  | mode2 (mode : Mode2)
  | float
  deriving DecidableEq

/-- The operands that the actions do something with. -/
inductive AssemblerInstruction where
  | mov (dst : Mode1) (src : Mode3)
  | push (src : Mode3)
  | pop (dst : Mode1)
  | cpy (dst : Mode1) (count : IndexConstant)
  | arith (dst : Mode1)
  | ctrl (dst : Mode1)
  | comp (lhs rhs : Mode2)
  | exit (code : IndexConstant)
  /-- `SETF`, `CLRF`, `EXIT` without a code, `ABORT`, `NOP` and `EXTERN`. -/
  | plain
  deriving DecidableEq

inductive VarConstant where
  | index (c : IndexConstant)
  | float (val : UInt32)
  | strg (val : StringT)
  deriving DecidableEq

/-- The four forms: `DATA n`, `DATA n[k]`, `DATA n = c` and `DATA n = {c₁, …, cₘ}`. -/
inductive VarDef where
  | slot (name : CString)
  | slots (name : CString) (k : IndexConstant)
  | init (name : CString) (c : VarConstant)
  | inits (name : CString) (first : VarConstant) (rest : List VarConstant)
  deriving DecidableEq

inductive Instruction where
  | assembler (instr : AssemblerInstruction)
  | varDef (d : VarDef)
  | label
  | includeFile
  deriving DecidableEq

/-! ## Actions -/

structure Env where
  memory : DataBuffer.Memory
  /-- the address of the `i`-th item that a constant rule builds -/
  itemAddr : ℕ → ℕ

structure State where
  symTable : SymTable
  data : DataBuffer
  dataIndex : ℤ
  dataCount : ℤ
  dataPtrs : Option (PointerList DataItem)
  errors : ℕ
  items : ℕ
  deriving DecidableEq

def initial : State where
  symTable := none
  data := DataBuffer.createDataBuffer
  dataIndex := 0
  dataCount := 0
  dataPtrs := none
  errors := 0
  items := 0

def indexItem : IndexConstant → DataItem
  | .int val => DataItem.createIvalItem (some val)
  | .uint val => DataItem.createUvalItem (some val)

section Actions

variable (env : Env) (st : State)

def indexConstant (c : IndexConstant) : DataItem × ℕ × State :=
  (indexItem c, env.itemAddr st.items, { st with items := st.items + 1 })

def varConstant : VarConstant → Except Halt (DataItem × State)
  | .index c =>
      let (item, _, st) := indexConstant env st c
      .ok (item, st)
  | .float val =>
      .ok (DataItem.createFvalItem (some val), { st with items := st.items + 1 })
  | .strg val => do
      let item ← DataItem.createSvalTItem env.memory.bytes env.memory.addr val
      .ok (item, { st with items := st.items + 1 })

/-- The list is created for the first constant of the whole source. -/
def listConstant (c : VarConstant) : Except Halt State := do
  let (item, st) ← varConstant env st c
  let dataPtrs := st.dataPtrs.getD PointerList.createPtrList
  let dataPtrs ← dataPtrs.appendPtrList env.memory.pointers (some item)
  .ok { st with dataPtrs := some dataPtrs }

/-- `for(int i = 1; i < $4; i++) append_data_buffer(0x00);` -/
def appendSlots (data : DataBuffer) : ℕ → Except Halt DataBuffer
  | 0 => .ok data
  | n + 1 => do
      let (_, data) ← DataBuffer.appendDataBuffer env.memory data none
      appendSlots data n

/-- The bound of the loop and the length of the symbol are the address of the literal's item. -/
def varDef : VarDef → Except Halt State
  | .slot name => do
      let item := DataItem.createIvalItem none
      let (index, data) ← DataBuffer.appendDataBuffer env.memory st.data (some item)
      let symTable ← addSymbol st.symTable name SYM_DATA 1 (UInt32.ofInt index)
      .ok { st with data := data, symTable := symTable }
  | .slots name k => do
      let (_, addr, st) := indexConstant env st k
      let (dataIndex, data) ← DataBuffer.appendDataBuffer env.memory st.data none
      let data ← appendSlots env data (addr - 1)
      let symTable ← addSymbol st.symTable name SYM_DATA (toInt addr) (UInt32.ofInt dataIndex)
      .ok { st with data := data, symTable := symTable, dataIndex := dataIndex }
  | .init name c => do
      let (_, st) ← varConstant env st c
      let symTable ← addSymbol st.symTable name SYM_DATA 1 (UInt32.ofInt st.dataIndex)
      .ok { st with symTable := symTable }
  | .inits name first rest => do
      let st ← (first :: rest).foldlM (listConstant env) st
      let symTable ←
        addSymbol st.symTable name SYM_DATA st.dataCount (UInt32.ofInt st.dataIndex)
      .ok { st with symTable := symTable, dataCount := 0 }

def idiv (x y : Int32) : Except Halt Int32 :=
  if y = 0 ∨ (x = Int32.minValue ∧ y = -1) then .error .trap else .ok (x / y)

def imod (x y : Int32) : Except Halt Int32 :=
  if y = 0 ∨ (x = Int32.minValue ∧ y = -1) then .error .trap else .ok (x % y)

/-- A zero on the left is reported, and stays the value. -/
def indexOp (x y : Int32) : IndexOp → Except Halt (Int32 × State)
  | .add => .ok (x + y, st)
  | .sub => .ok (x - y, st)
  | .mul => .ok (x * y, st)
  | .div =>
      if x = 0 then .ok (x, { st with errors := st.errors + 1 })
      else do
        let z ← idiv x y
        .ok (z, st)
  | .mod =>
      if x = 0 then .ok (x, { st with errors := st.errors + 1 })
      else do
        let z ← imod x y
        .ok (z, st)

/-- The value of a constant is the low word of its item's address. -/
def indexExpr (st : State) : IndexExpr → Except Halt (Int32 × State)
  | .const c =>
      let (_, addr, st) := indexConstant env st c
      .ok (Int32.ofNat addr, st)
  | .binary op lhs rhs => do
      let (x, st) ← indexExpr st lhs
      let (y, st) ← indexExpr st rhs
      indexOp st x y op
  | .paren expr => indexExpr st expr

def mode1 : Mode1 → Except Halt State
  | .register => .ok st
  | .registerIndex none => .ok st
  | .registerIndex (some expr) => do
      let (_, st) ← indexExpr env st expr
      .ok st
  | .name => .ok st

def mode2 : Mode2 → Except Halt State
  | .mode1 mode => mode1 env st mode
  | .const c => .ok (indexConstant env st c).2.2

def mode3 : Mode3 → Except Halt State
  | .mode2 mode => mode2 env st mode
  | .float => .ok st

def assemblerInstruction : AssemblerInstruction → Except Halt State
  | .mov dst src => do
      let st ← mode1 env st dst
      mode3 env st src
  | .push src => mode3 env st src
  | .pop dst => mode1 env st dst
  | .cpy dst count => do
      let st ← mode1 env st dst
      .ok (indexConstant env st count).2.2
  | .arith dst => mode1 env st dst
  | .ctrl dst => mode1 env st dst
  | .comp lhs rhs => do
      let st ← mode2 env st lhs
      mode2 env st rhs
  | .exit code => .ok (indexConstant env st code).2.2
  | .plain => .ok st

def instruction : Instruction → Except Halt State
  | .assembler instr => assemblerInstruction env st instr
  | .varDef d => varDef env st d
  | .label => .ok st
  | .includeFile => .ok st

def instructionList (source : List Instruction) : Except Halt State :=
  source.foldlM (instruction env) st

end Actions

/-- What `yyparse` leaves behind when it accepts the source. -/
def runParser (env : Env) (source : List Instruction) : Except Halt State :=
  instructionList env initial source

end SimpleVm.Parser
