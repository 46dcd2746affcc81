import SimpleVm.Assembler.GrammarActions
import SimpleVm.Assembler.Parser

/-!
# Runs of the parser

The actions of the grammar share the globals of the parser. On the tokens of a
source they do what the source says. There is no production for errors: the
first one is reported and ends the run, and what was complete before it stays.
-/

namespace SimpleVm.Parser

/-! ## Trees -/

def ofIndexExpr : Syntax.IndexExpr → IndexExpr
  | .leaf c => .const c
  | .binary op lhs rhs => .binary op (ofIndexExpr lhs) (ofIndexExpr rhs)
  | .paren expr => .paren (ofIndexExpr expr)

def ofMode1 : Syntax.Mode1 → Mode1
  | .register _ => .register
  | .registerIndex _ index => .registerIndex (index.map ofIndexExpr)
  | .name _ => .name

def ofMode2 : Syntax.Mode2 → Mode2
  | .mode1 mode => .mode1 (ofMode1 mode)
  | .indexConstant c => .const c

def ofMode3 : Syntax.Mode3 → Mode3
  | .mode2 mode => .mode2 (ofMode2 mode)
  | .float _ => .float

def ofAssembler : Syntax.AssemblerInstruction → AssemblerInstruction
  | .mov dst src => .mov (ofMode1 dst) (ofMode3 src)
  | .push src => .push (ofMode3 src)
  | .pop dst => .pop (ofMode1 dst)
  | .cpy dst _ count => .cpy (ofMode1 dst) count
  | .arith _ dst _ _ => .arith (ofMode1 dst)
  | .ctrl _ dst => .ctrl (ofMode1 dst)
  | .comp _ lhs rhs => .comp (ofMode2 lhs) (ofMode2 rhs)
  | .plain _ => .plain
  | .exit code => .exit code
  | .externStrg _ => .plain

section Source

-- the string that the scanner makes for a literal
variable (strg : CString → StringT)

def ofVarConstant : Syntax.VarConstant → VarConstant
  | .indexConstant c => .index c
  | .float fval => .float fval
  | .strg val => .strg (strg val)

def ofVarDef : Syntax.VarDef → VarDef
  | .slot name => .slot name
  | .slots name k => .slots name k
  | .init name c => .init name (ofVarConstant strg c)
  | .inits name first rest =>
      .inits name (ofVarConstant strg first) (rest.map (ofVarConstant strg))

def ofInstruction : Syntax.Instruction → Instruction
  | .assembler instr => .assembler (ofAssembler instr)
  | .varDef d => .varDef (ofVarDef strg d)
  | .label _ => .label
  | .includeFile _ => .includeFile

end Source

/-! ## The actions of the productions -/

abbrev Action := StateT State (Except Halt)

section Actions

variable (env : Env)

def createVarConstant (c : VarConstant) : Action DataItem := fun st => varConstant env st c

/-- `append_ptr_list(data_ptrs, (void*)item);` -/
def appendDataPtrs (dataPtrs : PointerList DataItem) (item : DataItem) : Action Unit := fun st => do
  let dataPtrs ← dataPtrs.appendPtrList env.memory.pointers (some item)
  .ok ((), { st with dataPtrs := some dataPtrs })

def createVarConstantList (item : DataItem) : Action Unit := fun st =>
  appendDataPtrs env (st.dataPtrs.getD PointerList.createPtrList) item st

def addToVarConstantList (item : DataItem) : Action Unit := fun st =>
  match st.dataPtrs with
  | some dataPtrs => appendDataPtrs env dataPtrs item st
  | none => .error .invalidAccess

def defineSlot (name : CString) : Action Unit := fun st => do
  let item := DataItem.createIvalItem none
  let (index, data) ← DataBuffer.appendDataBuffer env.memory st.data (some item)
  let symTable ← addSymbol st.symTable name SYM_DATA 1 (UInt32.ofInt index)
  .ok ((), { st with data := data, symTable := symTable })

/-- `$4` is a pointer to the item of the constant. -/
def defineSlots (name : CString) (k : DataItem × ℕ) : Action Unit := fun st => do
  let (dataIndex, data) ← DataBuffer.appendDataBuffer env.memory st.data none
  let data ← appendSlots env data (k.2 - 1)
  let symTable ← addSymbol st.symTable name SYM_DATA (toInt k.2) (UInt32.ofInt dataIndex)
  .ok ((), { st with data := data, symTable := symTable, dataIndex := dataIndex })

def defineInit (name : CString) : Action Unit := fun st => do
  let symTable ← addSymbol st.symTable name SYM_DATA 1 (UInt32.ofInt st.dataIndex)
  .ok ((), { st with symTable := symTable })

def defineInits (name : CString) : Action Unit := fun st => do
  let symTable ← addSymbol st.symTable name SYM_DATA st.dataCount (UInt32.ofInt st.dataIndex)
  .ok ((), { st with symTable := symTable, dataCount := 0 })

/-- The actions of the grammar. Those of the instructions for the machine write to the trace
and do nothing else. -/
abbrev actions (strg : CString → StringT) : Syntax.Actions Action where
  Const := DataItem × ℕ
  Expr := Int32
  Mode1 := Unit
  Mode2 := Unit
  Mode3 := Unit
  VarConst := DataItem
  VarConsts := Unit
  Instr := Unit
  indexConstant c := fun st =>
    let (item, addr, st) := indexConstant env st c
    .ok ((item, addr), st)
  exprConstant c := pure (Int32.ofNat c.2)
  exprBinary op x y := fun st => indexOp st x y op
  exprParen x := pure x
  mode1Register _ := pure ()
  mode1Index _ _ := pure ()
  mode1Name _ := pure ()
  mode2Mode1 _ := pure ()
  mode2Constant _ := pure ()
  mode3Mode2 _ := pure ()
  mode3Float _ := pure ()
  varIndex c := pure c.1
  varFloat fval := createVarConstant env (.float fval)
  varStrg val := createVarConstant env (.strg (strg val))
  createList item := createVarConstantList env item
  addToList _ item := addToVarConstantList env item
  slot name := defineSlot env name
  slots name k := defineSlots env name k
  init name _ := defineInit name
  inits name _ := defineInits name
  mov _ _ := pure ()
  push _ := pure ()
  pop _ := pure ()
  cpy _ _ _ := pure ()
  arith _ _ _ _ := pure ()
  ctrl _ _ := pure ()
  comp _ _ _ := pure ()
  plain _ := pure ()
  exit _ := pure ()
  externStrg _ := pure ()
  label _ := pure ()
  includeFile _ := pure ()

/-- A syntax error is reported by `yyerror`, which counts it, and ends the run with `1`. -/
def yyparse (strg : CString → StringT) (ts : List Token) (st : State) :
    Except Halt (ℤ × State) := do
  match ← (Syntax.instructionList (actions env strg) ts.length ts).run st with
  | (some _, st) => .ok (0, st)
  | (none, st) => .ok (1, { st with errors := st.errors + 1 })

end Actions

/-! ## Sources -/

section Source

variable (env : Env) (strg : CString → StringT)

theorem run_indexExpr (expr : Syntax.IndexExpr) (st : State) :
    (expr.eval (actions env strg).expr).run st = indexExpr env st (ofIndexExpr expr) := by
  induction expr generalizing st with
  | leaf c => rfl
  | binary op lhs rhs ihl ihr =>
      rw [OperatorPrecedence.Tree.eval, ofIndexExpr, indexExpr, StateT.run_bind, ihl]
      congr 1
      funext x
      rw [StateT.run_bind, ihr]
      rfl
  | paren expr ih =>
      have hparen : expr.eval (actions env strg).expr >>= (actions env strg).expr.paren =
          expr.eval (actions env strg).expr := bind_pure _
      rw [OperatorPrecedence.Tree.eval, hparen, ih]
      rfl

/-- The action has no value, and leaves the state that `f` says. -/
def Does (x : Action Unit) (f : State → Except Halt State) : Prop :=
  ∀ st, x.run st = (fun st => ((), st)) <$> f st

theorem Does.pure : Does (Pure.pure ()) .ok := fun _ => rfl

theorem Does.value {α : Type} {x : Action α} {y : α → Action Unit}
    {f : State → Except Halt (α × State)} {g : α → State → Except Halt State}
    (hx : ∀ st, x.run st = f st) (hy : ∀ a, Does (y a) (g a)) :
    Does (x >>= y) fun st => f st >>= fun p => g p.1 p.2 := by
  intro st
  change x.run st >>= (fun p => (y p.1).run p.2) = _
  rw [hx st, map_bind]
  congr 1
  funext p
  exact hy p.1 p.2

theorem Does.bind {x : Action Unit} {y : Unit → Action Unit} {f g : State → Except Halt State}
    (hx : Does x f) (hy : Does (y ()) g) : Does (x >>= y) fun st => f st >>= g := by
  intro st
  change x.run st >>= (fun p => (y p.1).run p.2) = _
  rw [hx st, map_bind, bind_map_left]
  congr 1
  funext st'
  exact hy st'

theorem Does.bind_pure {x : Action Unit} {f : State → Except Halt State} (hx : Does x f) :
    Does (x >>= fun _ => Pure.pure ()) f := by
  have hunit : (x >>= fun _ => Pure.pure ()) = x := LawfulMonad.bind_pure_comp _ x ▸ id_map x
  rw [hunit]
  exact hx

theorem does_mode1 (mode : Syntax.Mode1) :
    Does (mode.eval (actions env strg)) fun st => mode1 env st (ofMode1 mode) := by
  rcases mode with r | ⟨r, _ | expr⟩ | strg'
  · exact .pure
  · exact .pure
  · exact .value (run_indexExpr env strg expr) fun _ => .pure
  · exact .pure

theorem does_mode2 (mode : Syntax.Mode2) :
    Does (mode.eval (actions env strg)) fun st => mode2 env st (ofMode2 mode) := by
  cases mode with
  | mode1 mode => exact (does_mode1 env strg mode).bind_pure
  | indexConstant c => exact fun _ => rfl

theorem does_mode3 (mode : Syntax.Mode3) :
    Does (mode.eval (actions env strg)) fun st => mode3 env st (ofMode3 mode) := by
  cases mode with
  | mode2 mode => exact (does_mode2 env strg mode).bind_pure
  | float fval => exact .pure

theorem does_assembler (instr : Syntax.AssemblerInstruction) :
    Does (instr.eval (actions env strg)) fun st =>
      assemblerInstruction env st (ofAssembler instr) := by
  cases instr with
  | mov dst src =>
      exact (does_mode1 env strg dst).bind (does_mode3 env strg src).bind_pure
  | push src => exact (does_mode3 env strg src).bind_pure
  | pop dst => exact (does_mode1 env strg dst).bind_pure
  | cpy dst src count => exact (does_mode1 env strg dst).bind fun _ => rfl
  | arith k dst lhs rhs => exact (does_mode1 env strg dst).bind_pure
  | ctrl k dst => exact (does_mode1 env strg dst).bind_pure
  | comp k lhs rhs => exact (does_mode2 env strg lhs).bind (does_mode2 env strg rhs).bind_pure
  | plain k => exact .pure
  | exit code => exact fun _ => rfl
  | externStrg strg' => exact .pure

theorem run_varConstant (c : Syntax.VarConstant) (st : State) :
    (c.eval (actions env strg)).run st = varConstant env st (ofVarConstant strg c) := by
  cases c with
  | indexConstant c => rfl
  | float fval => rfl
  | strg val =>
      have haction : (actions env strg).varStrg val = createVarConstant env (.strg (strg val)) := rfl
      rw [Syntax.VarConstant.eval, ofVarConstant, haction]
      rfl

theorem createList_eq (c : VarConstant) (st : State) :
    varConstant env st c >>= (fun p => createVarConstantList env p.1 p.2) =
      (fun st => ((), st)) <$> listConstant env st c := by
  rw [listConstant, map_bind]
  cases varConstant env st c with
  | error e => rfl
  | ok p =>
      obtain ⟨item, st₁⟩ := p
      simp only [ok_bind, createVarConstantList, appendDataPtrs, map_bind]
      congr 1

theorem varConstant_dataPtrs {c : VarConstant} {st st' : State} {item : DataItem}
    (h : varConstant env st c = .ok (item, st')) : st'.dataPtrs = st.dataPtrs := by
  cases c with
  | index c =>
      obtain ⟨-, rfl⟩ := Prod.mk.inj (Except.ok.inj h)
      rfl
  | float val =>
      obtain ⟨-, rfl⟩ := Prod.mk.inj (Except.ok.inj h)
      rfl
  | strg val =>
      simp only [varConstant, bind_eq_ok] at h
      obtain ⟨item, -, h⟩ := h
      obtain ⟨-, rfl⟩ := Prod.mk.inj (Except.ok.inj h)
      rfl

theorem listConstant_dataPtrs {c : VarConstant} {st st' : State}
    (h : listConstant env st c = .ok st') : st'.dataPtrs.isSome := by
  simp only [listConstant, bind_eq_ok] at h
  obtain ⟨⟨item, st₁⟩, -, dataPtrs, -, h⟩ := h
  obtain rfl := Except.ok.inj h
  rfl

/-- Behind the first constant of a list there is a list to add to. -/
theorem run_evalMore (cs : List Syntax.VarConstant) {st : State} (hst : st.dataPtrs.isSome) :
    (Syntax.evalMore (actions env strg) () cs).run st =
      (fun st => ((), st)) <$> (cs.map (ofVarConstant strg)).foldlM (listConstant env) st := by
  induction cs generalizing st with
  | nil => rfl
  | cons c cs ih =>
      have hadd : ∀ {item : DataItem} {st' : State},
          varConstant env st (ofVarConstant strg c) = .ok (item, st') →
          addToVarConstantList env item st' = createVarConstantList env item st' := by
        intro item st' hrun
        rw [← varConstant_dataPtrs env hrun] at hst
        obtain ⟨dataPtrs, hsome⟩ := Option.isSome_iff_exists.mp hst
        rw [addToVarConstantList, createVarConstantList, hsome]
        rfl
      have hstep : varConstant env st (ofVarConstant strg c) >>=
          (fun p => addToVarConstantList env p.1 p.2) =
            (fun st => ((), st)) <$> listConstant env st (ofVarConstant strg c) := by
        rw [← createList_eq]
        cases hrun : varConstant env st (ofVarConstant strg c) with
        | error e => rfl
        | ok p => exact hadd hrun
      have hsplit : (Syntax.evalMore (actions env strg) () (c :: cs)).run st =
          (varConstant env st (ofVarConstant strg c) >>=
            fun p => addToVarConstantList env p.1 p.2) >>=
              fun p => (Syntax.evalMore (actions env strg) () cs).run p.2 := by
        rw [← run_varConstant]
        exact (LawfulMonad.bind_assoc (m := Except Halt) _ _ _).symm
      rw [hsplit, hstep, List.map_cons, List.foldlM_cons, bind_map_left]
      cases hrun : listConstant env st (ofVarConstant strg c) with
      | error e => rfl
      | ok st' => exact ih (listConstant_dataPtrs env hrun)

theorem does_defineSlot (name : CString) :
    Does (defineSlot env name) fun st => varDef env st (.slot name) := by
  intro st
  change defineSlot env name st = _
  simp only [defineSlot, varDef, map_bind]
  rfl

theorem does_defineSlots (name : CString) (k : IndexConstant) :
    Does ((actions env strg).indexConstant k >>= defineSlots env name) fun st =>
      varDef env st (.slots name k) := by
  intro st
  have hrun : ((actions env strg).indexConstant k >>= defineSlots env name).run st =
      defineSlots env name ((indexConstant env st k).1, (indexConstant env st k).2.1)
        (indexConstant env st k).2.2 := rfl
  rw [hrun]
  simp only [defineSlots, varDef, map_bind]
  rfl

theorem does_defineInit (name : CString) (c : Syntax.VarConstant) :
    Does (c.eval (actions env strg) >>= fun _ => defineInit name) fun st =>
      varDef env st (.init name (ofVarConstant strg c)) := by
  have hdefine : ∀ st, (defineInit name).run st = (fun st => ((), st)) <$> (do
      let symTable ← addSymbol st.symTable name SYM_DATA 1 (UInt32.ofInt st.dataIndex)
      Except.ok { st with symTable := symTable }) := by
    intro st
    simp only [map_bind]
    rfl
  exact .value (run_varConstant env strg c) fun _ => hdefine

theorem does_defineInits (name : CString) (first : Syntax.VarConstant)
    (rest : List Syntax.VarConstant) :
    Does ((Syntax.VarDef.inits name first rest).eval (actions env strg)) fun st =>
      varDef env st (ofVarDef strg (.inits name first rest)) := by
  intro st
  have hsplit : ((Syntax.VarDef.inits name first rest).eval (actions env strg)).run st =
      (varConstant env st (ofVarConstant strg first) >>=
        fun p => createVarConstantList env p.1 p.2) >>= fun p =>
          (Syntax.evalMore (actions env strg) () rest).run p.2 >>= fun p =>
            defineInits name p.2 := by
    rw [← run_varConstant]
    exact (LawfulMonad.bind_assoc (m := Except Halt) _ _ _).symm
  refine hsplit.trans ?_
  simp only [ofVarDef, varDef, List.foldlM_cons]
  rw [createList_eq, bind_map_left, bind_assoc, map_bind]
  cases hrun : listConstant env st (ofVarConstant strg first) with
  | error e => rfl
  | ok st' =>
      change (Syntax.evalMore (actions env strg) () rest).run st' >>= _ = _
      rw [run_evalMore env strg rest (listConstant_dataPtrs env hrun), bind_map_left]
      simp only [ok_bind, map_bind]
      rfl

theorem does_varDef (d : Syntax.VarDef) :
    Does (d.eval (actions env strg)) fun st => varDef env st (ofVarDef strg d) := by
  cases d with
  | slot name => exact does_defineSlot env name
  | slots name k => exact does_defineSlots env strg name k
  | init name c => exact does_defineInit env strg name c
  | inits name first rest => exact does_defineInits env strg name first rest

theorem does_instruction (i : Syntax.Instruction) :
    Does (i.eval (actions env strg)) fun st => instruction env st (ofInstruction strg i) := by
  cases i with
  | assembler instr => exact does_assembler env strg instr
  | varDef d => exact does_varDef env strg d
  | label name => exact .pure
  | includeFile name => exact .pure

theorem run_evalList (source : List Syntax.Instruction) (st : State) :
    (fun p => p.2) <$> (Syntax.evalList (actions env strg) source).run st =
      instructionList env st (source.map (ofInstruction strg)) := by
  induction source generalizing st with
  | nil => rfl
  | cons i source ih =>
      rw [Syntax.evalList, StateT.run_bind, does_instruction env strg i st, List.map_cons,
        instructionList, List.foldlM_cons, bind_map_left, map_bind]
      congr 1
      funext st'
      rw [StateT.run_bind, map_bind]
      simp only [StateT.run_pure, map_pure]
      exact ih st'

end Source

/-! ## Errors -/

/-- What an instruction that is not complete leaves alone. -/
structure State.Kept (st st' : State) : Prop where
  symTable_eq : st'.symTable = st.symTable
  data_eq : st'.data = st.data
  dataIndex_eq : st'.dataIndex = st.dataIndex
  dataCount_eq : st'.dataCount = st.dataCount
  errors_le : st.errors ≤ st'.errors

theorem State.Kept.refl (st : State) : st.Kept st := ⟨rfl, rfl, rfl, rfl, Nat.le_refl _⟩

theorem State.Kept.trans {st st' st'' : State} (h : st.Kept st') (h' : st'.Kept st'') :
    st.Kept st'' where
  symTable_eq := h'.symTable_eq.trans h.symTable_eq
  data_eq := h'.data_eq.trans h.data_eq
  dataIndex_eq := h'.dataIndex_eq.trans h.dataIndex_eq
  dataCount_eq := h'.dataCount_eq.trans h.dataCount_eq
  errors_le := h.errors_le.trans h'.errors_le

/-- The programs that define nothing. -/
def keeping : Programs Action where
  Has x := ∀ st a st', x.run st = .ok (a, st') → st.Kept st'
  pure a st a' st' h := by
    obtain ⟨-, rfl⟩ := Prod.mk.inj (Except.ok.inj h)
    exact .refl st
  bind {α β x f} hx hf st b st' h := by
    simp only [StateT.run_bind, bind_eq_ok] at h
    obtain ⟨⟨a, mid⟩, hmid, hrest⟩ := h
    exact (hx st a mid hmid).trans (hf a mid b st' hrest)

section Errors

variable (env : Env) (strg : CString → StringT)

theorem createVarConstant_kept (c : VarConstant) : keeping.Has (createVarConstant env c) := by
  intro st item st' h
  change varConstant env st c = _ at h
  cases c with
  | index c =>
      obtain ⟨-, rfl⟩ := Prod.mk.inj (Except.ok.inj h)
      exact ⟨rfl, rfl, rfl, rfl, Nat.le_refl _⟩
  | float val =>
      obtain ⟨-, rfl⟩ := Prod.mk.inj (Except.ok.inj h)
      exact ⟨rfl, rfl, rfl, rfl, Nat.le_refl _⟩
  | strg val =>
      simp only [varConstant, bind_eq_ok] at h
      obtain ⟨item, -, h⟩ := h
      obtain ⟨-, rfl⟩ := Prod.mk.inj (Except.ok.inj h)
      exact ⟨rfl, rfl, rfl, rfl, Nat.le_refl _⟩

theorem indexOp_kept {op : IndexOp} {x y z : Int32} {st st' : State}
    (h : indexOp st x y op = .ok (z, st')) : st.Kept st' := by
  have hdiv : ∀ {f : Int32 → Int32 → Except Halt Int32},
      (if x = 0 then .ok (x, { st with errors := st.errors + 1 })
        else do
          let z ← f x y
          .ok (z, st)) = (.ok (z, st') : Except Halt (Int32 × State)) → st.Kept st' := by
    intro f h
    split at h
    · obtain ⟨-, rfl⟩ := Prod.mk.inj (Except.ok.inj h)
      exact ⟨rfl, rfl, rfl, rfl, Nat.le_succ _⟩
    · simp only [bind_eq_ok] at h
      obtain ⟨z, -, h⟩ := h
      obtain ⟨-, rfl⟩ := Prod.mk.inj (Except.ok.inj h)
      exact .refl st
  cases op with
  | div => exact hdiv h
  | mod => exact hdiv h
  | _ =>
      obtain ⟨-, rfl⟩ := Prod.mk.inj (Except.ok.inj h)
      exact .refl st

theorem appendDataPtrs_kept (dataPtrs : PointerList DataItem) (item : DataItem) :
    keeping.Has (appendDataPtrs env dataPtrs item) := by
  intro st a st' h
  change appendDataPtrs env dataPtrs item st = _ at h
  simp only [appendDataPtrs, bind_eq_ok] at h
  obtain ⟨dataPtrs', -, h⟩ := h
  obtain ⟨-, rfl⟩ := Prod.mk.inj (Except.ok.inj h)
  exact ⟨rfl, rfl, rfl, rfl, Nat.le_refl _⟩

theorem createVarConstantList_kept (item : DataItem) :
    keeping.Has (createVarConstantList env item) :=
  fun st => appendDataPtrs_kept env (st.dataPtrs.getD PointerList.createPtrList) item st

theorem addToVarConstantList_kept (item : DataItem) :
    keeping.Has (addToVarConstantList env item) := by
  intro st a st' h
  change addToVarConstantList env item st = _ at h
  rw [addToVarConstantList] at h
  split at h
  · exact appendDataPtrs_kept env _ item st a st' h
  · cases h

theorem within_keeping : (actions env strg).Within keeping where
  indexConstant c st a st' h := by
    obtain ⟨-, rfl⟩ := Prod.mk.inj (Except.ok.inj h)
    exact ⟨rfl, rfl, rfl, rfl, Nat.le_refl _⟩
  exprConstant c := keeping.pure _
  exprBinary op x y st a st' h := indexOp_kept h
  exprParen x := keeping.pure _
  mode1Register _ := keeping.pure _
  mode1Index _ _ := keeping.pure _
  mode1Name _ := keeping.pure _
  mode2Mode1 _ := keeping.pure _
  mode2Constant _ := keeping.pure _
  mode3Mode2 _ := keeping.pure _
  mode3Float _ := keeping.pure _
  varIndex c := keeping.pure _
  varFloat fval := createVarConstant_kept env (.float fval)
  varStrg val := createVarConstant_kept env (.strg (strg val))
  createList item := createVarConstantList_kept env item
  addToList _ item := addToVarConstantList_kept env item

variable {env strg}

theorem yyparse_accepts {ts : List Token} {source : List Syntax.Instruction}
    (h : Syntax.Derives ts source) (st : State) :
    yyparse env strg ts st =
      (fun st => (0, st)) <$> instructionList env st (source.map (ofInstruction strg)) := by
  obtain ⟨hne, hordered, rfl⟩ := h
  rw [yyparse, Syntax.instructionList_fringe (actions env strg) hne hordered
    (Syntax.length_le_fringe source), ← run_evalList env strg, Reading.done, StateT.run_bind]
  cases (Syntax.evalList (actions env strg) source).run st <;> rfl

theorem yyparse_refuses {ts : List Token} (h : ∀ source, ¬ Syntax.Derives ts source)
    {st st' : State} {r : ℤ} (hrun : yyparse env strg ts st = .ok (r, st')) :
    r = 1 ∧ ∃ source rest mid, Syntax.Reads ts source rest ∧
      (Syntax.instruction Syntax.treeActions rest).run = none ∧
      instructionList env st (source.map (ofInstruction strg)) = .ok mid ∧
      mid.Kept st' ∧ mid.errors < st'.errors := by
  have hnone : (Syntax.instructionList Syntax.treeActions ts.length ts).run = none := by
    by_contra hsome
    obtain ⟨⟨source, rest⟩, hread⟩ := Option.ne_none_iff_exists'.mp hsome
    exact h source (Syntax.instructionList_sound hread).1
  obtain ⟨source, rest, x, hreads, hrest, hx, hlist⟩ :=
    Syntax.instructionList_refuses (within_keeping env strg) (Nat.le_refl _) hnone
  rw [yyparse, hlist, bind_eq_ok] at hrun
  obtain ⟨⟨read, st₂⟩, hread, hcount⟩ := hrun
  simp only [StateT.run_bind, bind_eq_ok] at hread
  obtain ⟨⟨vs, mid⟩, heval, ⟨u, st₁⟩, hkept, hpure⟩ := hread
  obtain ⟨rfl, rfl⟩ := Prod.mk.inj (Except.ok.inj hpure)
  obtain ⟨rfl, rfl⟩ := Prod.mk.inj (Except.ok.inj hcount)
  have hmid := hx mid u st₁ hkept
  refine ⟨rfl, source, rest, mid, hreads, hrest, ?_, ?_, Nat.lt_succ_of_le hmid.errors_le⟩
  · rw [← run_evalList env strg, heval]
    rfl
  · exact ⟨hmid.symTable_eq, hmid.data_eq, hmid.dataIndex_eq, hmid.dataCount_eq,
      Nat.le_succ_of_le hmid.errors_le⟩

/-- Either the tokens have one derivation, and the parser accepts them and does what the
instructions of that derivation say, or they have none. Then it reports an error, and the
tables are those that the instructions complete before the error left. -/
theorem yyparse_spec (env : Env) (strg : CString → StringT) (ts : List Token) (st : State) :
    (∃ source, (∀ source', Syntax.Derives ts source' ↔ source' = source) ∧
        yyparse env strg ts st =
          (fun st => (0, st)) <$> instructionList env st (source.map (ofInstruction strg))) ∨
      ((∀ source, ¬ Syntax.Derives ts source) ∧
        ∀ r st', yyparse env strg ts st = .ok (r, st') →
          r = 1 ∧ ∃ source rest mid, Syntax.Reads ts source rest ∧
            (Syntax.instruction Syntax.treeActions rest).run = none ∧
            instructionList env st (source.map (ofInstruction strg)) = .ok mid ∧
            mid.Kept st' ∧ mid.errors < st'.errors) := by
  cases hparse : Syntax.parse ts with
  | none =>
      have hno : ∀ source, ¬ Syntax.Derives ts source := by
        intro source hsource
        rw [Syntax.parse_of_derives hsource] at hparse
        cases hparse
      exact .inr ⟨hno, fun r st' hrun => yyparse_refuses hno hrun⟩
  | some source =>
      have hsource := Syntax.derives_of_parse hparse
      refine .inl ⟨source, fun source' => ⟨fun hsource' => ?_, ?_⟩, yyparse_accepts hsource st⟩
      · have hsame := Syntax.parse_of_derives hsource'
        rw [hparse] at hsame
        exact (Option.some.inj hsame).symm
      · rintro rfl
        exact hsource

end Errors

end SimpleVm.Parser
