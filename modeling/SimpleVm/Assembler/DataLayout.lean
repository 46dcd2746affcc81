import SimpleVm.Assembler.Parser

/-!
# The layout of the data

A layout says how many slots there are, what `data_index` is, and which
symbols the definitions have added. One definition makes one step. The
actions of the parser follow the layout, whatever the instructions between
the definitions do, and all slots hold the unsigned number zero.
-/

namespace SimpleVm.Parser

def IndexConstant.value : IndexConstant → ℤ
  | .int val => val.toInt
  | .uint val => val.toNat

namespace VarDef

def name : VarDef → CString
  | .slot name => name
  | .slots name _ => name
  | .init name _ => name
  | .inits name _ _ => name

def slotCount : VarDef → ℤ
  | .slot _ => 1
  | .slots _ k => k.value
  | .init _ _ => 1
  | .inits _ _ rest => rest.length + 1

def items : VarDef → ℕ
  | .slot _ => 0
  | .slots _ _ => 1
  | .init _ _ => 1
  | .inits _ _ rest => rest.length + 1

end VarDef

def IndexExpr.items : IndexExpr → ℕ
  | .const _ => 1
  | .binary _ lhs rhs => lhs.items + rhs.items
  | .paren expr => expr.items

def Mode1.items : Mode1 → ℕ
  | .registerIndex (some expr) => expr.items
  | _ => 0

def Mode2.items : Mode2 → ℕ
  | .mode1 mode => mode.items
  | .const _ => 1

def Mode3.items : Mode3 → ℕ
  | .mode2 mode => mode.items
  | .float => 0

def AssemblerInstruction.items : AssemblerInstruction → ℕ
  | .mov dst src => dst.items + src.items
  | .push src => src.items
  | .pop dst => dst.items
  | .cpy dst _ => dst.items + 1
  | .arith dst => dst.items
  | .ctrl dst => dst.items
  | .comp lhs rhs => lhs.items + rhs.items
  | .exit _ => 1
  | .plain => 0

def Instruction.items : Instruction → ℕ
  | .assembler instr => instr.items
  | .varDef d => d.items
  | .label => 0
  | .includeFile => 0

/-- A definition, with the address of the first item that is built for it. -/
abbrev Placed := VarDef × ℕ

/-- The definitions of a source, when so many items have been built before it. -/
def placedDefs (env : Env) : ℕ → List Instruction → List Placed
  | _, [] => []
  | items, .varDef d :: rest => (d, env.itemAddr items) :: placedDefs env (items + d.items) rest
  | items, instr :: rest => placedDefs env (items + instr.items) rest

structure Layout where
  size : ℕ
  dataIndex : ℕ
  symbols : List Symbol

namespace Layout

def empty : Layout where
  size := 0
  dataIndex := 0
  symbols := []

/-- The slots that a definition appends to the buffer. -/
def reserved : Placed → ℕ
  | (.slot _, _) => 1
  | (.slots _ _, addr) => 1 + (addr - 1)
  | (.init _ _, _) => 0
  | (.inits _ _ _, _) => 0

variable (l : Layout)

def indexOf : VarDef → ℕ
  | .slot _ => l.size
  | .slots _ _ => l.size
  | .init _ _ => l.dataIndex
  | .inits _ _ _ => l.dataIndex

def lengthOf : Placed → ℤ
  | (.slot _, _) => 1
  | (.slots _ _, addr) => toInt addr
  | (.init _ _, _) => 1
  | (.inits _ _ _, _) => 0

def symbolOf (p : Placed) : Symbol :=
  ⟨p.1.name, SYM_DATA, lengthOf p, UInt32.ofInt (l.indexOf p.1)⟩

def step (p : Placed) : Layout where
  size := l.size + reserved p
  dataIndex :=
    match p.1 with
    | .slots _ _ => l.size
    | _ => l.dataIndex
  symbols := l.symbols ++ [l.symbolOf p]

def run (defs : List Placed) : Layout := defs.foldl step l

/-- The state of the parser is as the layout says. -/
structure Holds (l : Layout) (st : State) : Prop where
  data : st.data.Holds (List.replicate l.size (some (.unsigned 0)))
  dataIndex_eq : st.dataIndex = l.dataIndex
  dataCount_eq : st.dataCount = 0
  symTable : Symbols.Holds l.symbols (st.symTable.getD HashTable.createHashtable)
  symTable_isSome : l.symbols ≠ [] → st.symTable.isSome

theorem Holds.size_le {l : Layout} {st : State} (h : l.Holds st) : l.size ≤ 2 ^ 30 := by
  have hlen := h.data.len_eq
  rw [List.length_replicate] at hlen
  exact hlen ▸ h.data.len_le.trans h.data.cap_le

theorem holds_initial : Holds empty initial where
  data := PointerList.holds_create
  dataIndex_eq := rfl
  dataCount_eq := rfl
  symTable := Symbols.holds_create
  symTable_isSome := fun h => absurd rfl h

end Layout

/-! ## What the other actions leave alone -/

/-- Only items have been built in between, so many of them. -/
structure Built (n : ℕ) (st st' : State) : Prop where
  items_eq : st'.items = st.items + n
  symTable_eq : st'.symTable = st.symTable
  data_eq : st'.data = st.data
  dataIndex_eq : st'.dataIndex = st.dataIndex
  dataCount_eq : st'.dataCount = st.dataCount

theorem Built.refl (st : State) : Built 0 st st := ⟨rfl, rfl, rfl, rfl, rfl⟩

theorem Built.trans {m n : ℕ} {st₁ st₂ st₃ : State} (h : Built m st₁ st₂) (h' : Built n st₂ st₃) :
    Built (m + n) st₁ st₃ where
  items_eq := by rw [h'.items_eq, h.items_eq, Nat.add_assoc]
  symTable_eq := h'.symTable_eq.trans h.symTable_eq
  data_eq := h'.data_eq.trans h.data_eq
  dataIndex_eq := h'.dataIndex_eq.trans h.dataIndex_eq
  dataCount_eq := h'.dataCount_eq.trans h.dataCount_eq

section Frame

variable {env : Env} {st st' : State}

theorem built_item (st : State) : Built 1 st { st with items := st.items + 1 } :=
  ⟨rfl, rfl, rfl, rfl, rfl⟩

theorem built_varConstant {c : VarConstant} {item : DataItem}
    (h : varConstant env st c = .ok (item, st')) : Built 1 st st' := by
  cases c with
  | index c =>
      obtain ⟨-, rfl⟩ := Prod.mk.inj (Except.ok.inj h)
      exact built_item st
  | float val =>
      obtain ⟨-, rfl⟩ := Prod.mk.inj (Except.ok.inj h)
      exact built_item st
  | strg val =>
      simp only [varConstant, bind_eq_ok, Except.ok.injEq, Prod.mk.injEq] at h
      obtain ⟨_, -, -, rfl⟩ := h
      exact built_item st

theorem built_listConstant {c : VarConstant} (h : listConstant env st c = .ok st') :
    Built 1 st st' := by
  simp only [listConstant, bind_eq_ok, Except.ok.injEq] at h
  obtain ⟨⟨item, mid⟩, hconst, ptrs, -, rfl⟩ := h
  have hmid := built_varConstant hconst
  exact ⟨hmid.items_eq, hmid.symTable_eq, hmid.data_eq, hmid.dataIndex_eq, hmid.dataCount_eq⟩

theorem built_listConstants {cs : List VarConstant}
    (h : cs.foldlM (listConstant env) st = .ok st') : Built cs.length st st' := by
  induction cs generalizing st with
  | nil =>
      obtain rfl := Except.ok.inj h
      exact Built.refl st
  | cons c cs ih =>
      simp only [List.foldlM_cons, bind_eq_ok] at h
      obtain ⟨mid, hc, hcs⟩ := h
      rw [List.length_cons, Nat.add_comm]
      exact (built_listConstant hc).trans (ih hcs)

theorem built_indexOp {x y v : Int32} {op : IndexOp} (h : indexOp st x y op = .ok (v, st')) :
    Built 0 st st' := by
  have hdivide {r : Except Halt Int32} (hr : (if x = 0 then
      Except.ok (x, { st with errors := st.errors + 1 }) else do
        let z ← r
        Except.ok (z, st)) = .ok (v, st')) : Built 0 st st' := by
    split at hr
    · obtain ⟨-, rfl⟩ := Prod.mk.inj (Except.ok.inj hr)
      exact ⟨rfl, rfl, rfl, rfl, rfl⟩
    · simp only [bind_eq_ok, Except.ok.injEq, Prod.mk.injEq] at hr
      obtain ⟨_, -, -, rfl⟩ := hr
      exact Built.refl st
  cases op with
  | add => exact (Prod.mk.inj (Except.ok.inj h)).2 ▸ Built.refl st
  | sub => exact (Prod.mk.inj (Except.ok.inj h)).2 ▸ Built.refl st
  | mul => exact (Prod.mk.inj (Except.ok.inj h)).2 ▸ Built.refl st
  | div => exact hdivide h
  | mod => exact hdivide h

theorem built_indexExpr {expr : IndexExpr} {v : Int32}
    (h : indexExpr env st expr = .ok (v, st')) : Built expr.items st st' := by
  induction expr generalizing st v st' with
  | const c =>
      obtain ⟨-, rfl⟩ := Prod.mk.inj (Except.ok.inj h)
      exact built_item st
  | binary op lhs rhs ihl ihr =>
      simp only [indexExpr, bind_eq_ok] at h
      obtain ⟨⟨x, st₁⟩, hl, ⟨y, st₂⟩, hr, hop⟩ := h
      exact ((ihl hl).trans (ihr hr)).trans (built_indexOp hop)
  | paren expr ih => exact ih h

theorem built_mode1 {mode : Mode1} (h : mode1 env st mode = .ok st') :
    Built mode.items st st' := by
  cases mode with
  | register => exact Except.ok.inj h ▸ Built.refl st
  | registerIndex index =>
      cases index with
      | none => exact Except.ok.inj h ▸ Built.refl st
      | some expr =>
          simp only [mode1, bind_eq_ok, Except.ok.injEq] at h
          obtain ⟨⟨v, mid⟩, hexpr, rfl⟩ := h
          exact built_indexExpr hexpr
  | name => exact Except.ok.inj h ▸ Built.refl st

theorem built_mode2 {mode : Mode2} (h : mode2 env st mode = .ok st') :
    Built mode.items st st' := by
  cases mode with
  | mode1 mode => exact built_mode1 h
  | const c => exact Except.ok.inj h ▸ built_item st

theorem built_mode3 {mode : Mode3} (h : mode3 env st mode = .ok st') :
    Built mode.items st st' := by
  cases mode with
  | mode2 mode => exact built_mode2 h
  | float => exact Except.ok.inj h ▸ Built.refl st

theorem built_assemblerInstruction {instr : AssemblerInstruction}
    (h : assemblerInstruction env st instr = .ok st') : Built instr.items st st' := by
  cases instr with
  | mov dst src =>
      simp only [assemblerInstruction, bind_eq_ok] at h
      obtain ⟨mid, hdst, hsrc⟩ := h
      exact (built_mode1 hdst).trans (built_mode3 hsrc)
  | push src => exact built_mode3 h
  | pop dst => exact built_mode1 h
  | cpy dst count =>
      simp only [assemblerInstruction, bind_eq_ok] at h
      obtain ⟨mid, hdst, hcount⟩ := h
      exact (built_mode1 hdst).trans (Except.ok.inj hcount ▸ built_item mid)
  | arith dst => exact built_mode1 h
  | ctrl dst => exact built_mode1 h
  | comp lhs rhs =>
      simp only [assemblerInstruction, bind_eq_ok] at h
      obtain ⟨mid, hlhs, hrhs⟩ := h
      exact (built_mode2 hlhs).trans (built_mode2 hrhs)
  | exit code => exact Except.ok.inj h ▸ built_item st
  | plain => exact Except.ok.inj h ▸ Built.refl st

end Frame

/-! ## One definition makes one step -/

theorem rewrapped_none : DataBuffer.rewrapped none = .unsigned 0 := rfl

theorem rewrapped_integer (val : Option Int32) :
    DataBuffer.rewrapped (some (DataItem.createIvalItem val)) = .unsigned 0 := rfl

theorem holds_append_zero {memory : DataBuffer.Memory} {data data' : DataBuffer} {n : ℕ} {r : ℤ}
    {val : Option DataItem} (hzero : DataBuffer.rewrapped val = .unsigned 0)
    (h : data.Holds (List.replicate n (some (.unsigned 0))))
    (hrun : DataBuffer.appendDataBuffer memory data val = .ok (r, data')) :
    r = n ∧ data'.Holds (List.replicate (n + 1) (some (.unsigned 0))) := by
  obtain ⟨-, hr, hheld⟩ := DataBuffer.append_eq_ok h hrun
  rw [List.length_replicate] at hr
  rw [hzero, ← List.replicate_succ'] at hheld
  exact ⟨hr, hheld⟩

theorem holds_appendSlots {env : Env} {data data' : DataBuffer} {n k : ℕ}
    (h : data.Holds (List.replicate n (some (.unsigned 0))))
    (hrun : appendSlots env data k = .ok data') :
    data'.Holds (List.replicate (n + k) (some (.unsigned 0))) := by
  induction k generalizing data n with
  | zero => exact Except.ok.inj hrun ▸ h
  | succ k ih =>
      simp only [appendSlots, bind_eq_ok] at hrun
      obtain ⟨⟨r, mid⟩, hstep, hrest⟩ := hrun
      obtain ⟨-, hmid⟩ := holds_append_zero rewrapped_none h hstep
      rw [Nat.add_comm k 1, ← Nat.add_assoc]
      exact ih hmid hrest

namespace Layout

variable {env : Env} {l : Layout} {st st' : State}

theorem Holds.of_built {n : ℕ} (h : Holds l st) (hb : Built n st st') : Holds l st' where
  data := hb.data_eq ▸ h.data
  dataIndex_eq := hb.dataIndex_eq.trans h.dataIndex_eq
  dataCount_eq := hb.dataCount_eq.trans h.dataCount_eq
  symTable := hb.symTable_eq ▸ h.symTable
  symTable_isSome := hb.symTable_eq ▸ h.symTable_isSome

theorem Holds.varDef (h : Holds l st) {d : VarDef} (hrun : varDef env st d = .ok st') :
    Holds (l.step (d, env.itemAddr st.items)) st' ∧ st'.items = st.items + d.items := by
  cases d with
  | slot name =>
      simp only [Parser.varDef, bind_eq_ok, Except.ok.injEq] at hrun
      obtain ⟨⟨r, data⟩, happend, symTable, hsym, rfl⟩ := hrun
      obtain ⟨rfl, hdata⟩ := holds_append_zero (rewrapped_integer none) h.data happend
      obtain ⟨hsome, hsyms⟩ := h.symTable.of_addSymbol hsym
      exact ⟨⟨hdata, h.dataIndex_eq, h.dataCount_eq, hsyms, fun _ => hsome⟩, rfl⟩
  | slots name k =>
      simp only [Parser.varDef, indexConstant, bind_eq_ok, Except.ok.injEq] at hrun
      obtain ⟨⟨r, data⟩, hfirst, data', hrest, symTable, hsym, rfl⟩ := hrun
      obtain ⟨rfl, hdata⟩ := holds_append_zero rewrapped_none h.data hfirst
      obtain ⟨hsome, hsyms⟩ := h.symTable.of_addSymbol hsym
      have hslots := holds_appendSlots hdata hrest
      rw [Nat.add_assoc] at hslots
      exact ⟨⟨hslots, rfl, h.dataCount_eq, hsyms, fun _ => hsome⟩, rfl⟩
  | init name c =>
      simp only [Parser.varDef, bind_eq_ok, Except.ok.injEq] at hrun
      obtain ⟨⟨item, mid⟩, hconst, symTable, hsym, rfl⟩ := hrun
      have hbuilt := built_varConstant hconst
      have hmid := h.of_built hbuilt
      rw [hmid.dataIndex_eq] at hsym
      obtain ⟨hsome, hsyms⟩ := hmid.symTable.of_addSymbol hsym
      exact ⟨⟨hmid.data, hmid.dataIndex_eq, hmid.dataCount_eq, hsyms, fun _ => hsome⟩,
        hbuilt.items_eq⟩
  | inits name first rest =>
      simp only [Parser.varDef, bind_eq_ok, Except.ok.injEq] at hrun
      obtain ⟨mid, hconsts, symTable, hsym, rfl⟩ := hrun
      have hbuilt := built_listConstants hconsts
      have hmid := h.of_built hbuilt
      rw [hmid.dataIndex_eq, hmid.dataCount_eq] at hsym
      obtain ⟨hsome, hsyms⟩ := hmid.symTable.of_addSymbol hsym
      exact ⟨⟨hmid.data, hmid.dataIndex_eq, rfl, hsyms, fun _ => hsome⟩, hbuilt.items_eq⟩

theorem Holds.instructionList {source : List Instruction} (h : Holds l st)
    (hrun : instructionList env st source = .ok st') :
    Holds (l.run (placedDefs env st.items source)) st' := by
  induction source generalizing l st with
  | nil => exact Except.ok.inj hrun ▸ h
  | cons instr source ih =>
      simp only [Parser.instructionList, List.foldlM_cons, bind_eq_ok] at hrun
      obtain ⟨mid, hstep, hrest⟩ := hrun
      cases instr with
      | assembler instr =>
          have hbuilt := built_assemblerInstruction hstep
          have hrun := ih (h.of_built hbuilt) hrest
          rwa [hbuilt.items_eq] at hrun
      | varDef d =>
          obtain ⟨hmid, hitems⟩ := h.varDef hstep
          have hrun := ih hmid hrest
          rwa [hitems] at hrun
      | label =>
          obtain rfl := Except.ok.inj hstep
          exact ih h hrest
      | includeFile =>
          obtain rfl := Except.ok.inj hstep
          exact ih h hrest

end Layout

/-- The parser refines the layout of the definitions in its source. -/
theorem holds_runParser {env : Env} {source : List Instruction} {st : State}
    (hrun : runParser env source = .ok st) :
    (Layout.empty.run (placedDefs env 0 source)).Holds st :=
  Layout.holds_initial.instructionList hrun

end SimpleVm.Parser
