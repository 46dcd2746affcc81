import SimpleVm.Assembler.Syntax
import SimpleVm.Lib.Reading

/-!
# The parser

The parser decides with one token of lookahead, and an action runs as soon as
its production is known. Where the lookahead decides between a reduction and
something else, an error in its place comes before the reduction; a bare
register and a bare `EXIT` only write to the trace, and are not held back here.
The readers below have the productions of the grammar, and take any actions.
-/

namespace SimpleVm.Syntax

open SimpleVm.Parser (IndexConstant IndexOp)
open Reading

/-! ## The productions -/

def register : Token → Option Register
  | .register n => if h : 1 ≤ n ∧ n ≤ 32 then some ⟨n - 1, by omega⟩ else none
  | .keyword .SP => some ⟨32, by decide⟩
  | _ => none

/-- A token that is a constant. -/
def constant : Token → Option IndexConstant
  | .intLiteral val => some (.int val)
  | .uintLiteral val => some (.uint val)
  | _ => none

def varConstant : Token → Option VarConstant
  | .floatLiteral fval => some (.float fval)
  | .strgLiteral val => some (.strg val)
  | t => (constant t).map .indexConstant

def indexLexeme : Token → Option (OperatorPrecedence.Lexeme IndexConstant IndexOp)
  | .punct 43 => some (.operator .add)
  | .punct 45 => some (.operator .sub)
  | .punct 42 => some (.operator .mul)
  | .punct 47 => some (.operator .div)
  | .punct 37 => some (.operator .mod)
  | .punct 40 => some .openParen
  | .punct 41 => some .closeParen
  | t => (constant t).map .leaf

/-- The tokens that can stand in an index expression, and the others. -/
def splitIndex : List Token →
    List (OperatorPrecedence.Lexeme IndexConstant IndexOp) × List Token
  | [] => ([], [])
  | t :: ts =>
      match indexLexeme t with
      | some l => (l :: (splitIndex ts).1, (splitIndex ts).2)
      | none => ([], t :: ts)

/-- The tokens that an instruction can begin with. -/
def startsInstruction : Token → Bool
  | .name _ => true
  | .keyword k =>
      [Keyword.INCLUDE, .DATA, .MOV, .PUSH, .POP, .CPY, .EXTERN].contains k ||
        arithInstr.contains k || ctrlInstr.contains k || compInstr.contains k ||
        plainInstr.contains k
  | _ => false

/-- Only the end or another instruction can follow an instruction. -/
def boundary (ts : List Token) : Bool := (ts.head?.map startsInstruction).getD true

section Productions

variable {m : Type → Type} [Monad m] (act : Actions m)

/-- `'[' index_expr ']'` behind the bracket. -/
def indexExpr (ts : List Token) : m (Option (act.Expr × List Token)) :=
  match splitIndex ts with
  | (ls, rbracket :: rest) => whole (OperatorPrecedence.parse level act.expr ls) rest
  | (ls, _) => do
      OperatorPrecedence.steps level act.expr ⟨[], none⟩ ls
      pure none

/-- An `index` behind a register, or none. -/
def index (r : Register) : List Token → m (Option (act.Mode1 × List Token))
  | lbracket :: rbracket :: ts => done (act.mode1Index r none) ts
  | lbracket :: ts => andThen (indexExpr act ts) fun e ts => done (act.mode1Index r (some e)) ts
  | ts => done (act.mode1Register r) ts

def mode1 : List Token → m (Option (act.Mode1 × List Token))
  | .name strg :: ts => done (act.mode1Name strg) ts
  | t :: ts =>
      match register t with
      | some r => index act r ts
      | none => refuse
  | [] => refuse

def mode2 : List Token → m (Option (act.Mode2 × List Token))
  | t :: ts =>
      match constant t with
      | some c =>
          andThen (done (act.indexConstant c) ts) fun c ts => done (act.mode2Constant c) ts
      | none => andThen (mode1 act (t :: ts)) fun v ts => done (act.mode2Mode1 v) ts
  | [] => refuse

def mode3 : List Token → m (Option (act.Mode3 × List Token))
  | .floatLiteral fval :: ts => done (act.mode3Float fval) ts
  | ts => andThen (mode2 act ts) fun v ts => done (act.mode3Mode2 v) ts

def readRegister (ts : List Token) : m (Option (Register × List Token)) :=
  match ts with
  | t :: ts =>
      match register t with
      | some r => done (pure r) ts
      | none => refuse
  | [] => refuse

def readConstant (ts : List Token) : m (Option (act.Const × List Token)) :=
  match ts with
  | t :: ts =>
      match constant t with
      | some c => done (act.indexConstant c) ts
      | none => refuse
  | [] => refuse

def readVarConstant (ts : List Token) : m (Option (act.VarConst × List Token)) :=
  match ts with
  | t :: ts =>
      match varConstant t with
      | some c => done (c.eval act) ts
      | none => refuse
  | [] => refuse

/-- The rest of a `var_constant_list`, and the brace behind it. -/
def moreConstants (vs : act.VarConsts) : List Token → m (Option (act.VarConsts × List Token))
  | rbrace :: ts => done (pure vs) ts
  | comma :: t :: ts =>
      match varConstant t with
      | some c => do
          let v ← c.eval act
          let vs ← act.addToList vs v
          moreConstants vs ts
      | none => refuse
  | _ => refuse

/-- A `var_def` behind `DATA`. -/
def varDef : List Token → m (Option (act.Instr × List Token))
  | .name name :: lbracket :: ts =>
      andThen (readConstant act ts) fun k ts =>
        expect rbracket ts fun ts => done (act.slots name k) ts
  | .name name :: equals :: lbrace :: ts =>
      andThen (readVarConstant act ts) fun v ts =>
        andThen (done (act.createList v) ts) fun vs ts =>
          andThen (moreConstants act vs ts) fun vs ts => done (act.inits name vs) ts
  | .name name :: equals :: ts =>
      andThen (readVarConstant act ts) fun v ts => done (act.init name v) ts
  | .name name :: ts => if boundary ts then done (act.slot name) ts else refuse
  | _ => refuse

/-- An `assembler_instruction` behind its first token. -/
def assemblerInstruction (k : Keyword) (ts : List Token) : m (Option (act.Instr × List Token)) :=
  if hk : k ∈ arithInstr then
    andThen (mode1 act ts) fun dst ts => expect comma ts fun ts =>
      andThen (readRegister ts) fun lhs ts => expect comma ts fun ts =>
        andThen (readRegister ts) fun rhs ts => done (act.arith ⟨k, hk⟩ dst lhs rhs) ts
  else if hk : k ∈ ctrlInstr then
    andThen (mode1 act ts) fun dst ts => done (act.ctrl ⟨k, hk⟩ dst) ts
  else if hk : k ∈ compInstr then
    andThen (mode2 act ts) fun lhs ts => expect comma ts fun ts =>
      andThen (mode2 act ts) fun rhs ts => done (act.comp ⟨k, hk⟩ lhs rhs) ts
  else
    match k with
    | .MOV =>
        andThen (mode1 act ts) fun dst ts => expect comma ts fun ts =>
          andThen (mode3 act ts) fun src ts => done (act.mov dst src) ts
    | .PUSH => andThen (mode3 act ts) fun src ts => done (act.push src) ts
    | .POP => andThen (mode1 act ts) fun dst ts => done (act.pop dst) ts
    | .CPY =>
        andThen (mode1 act ts) fun dst ts => expect comma ts fun ts =>
          andThen (readRegister ts) fun src ts => expect comma ts fun ts =>
            andThen (readConstant act ts) fun count ts => done (act.cpy dst src count) ts
    | .EXIT =>
        if (ts.head?.bind constant).isSome then
          andThen (readConstant act ts) fun code ts => done (act.exit code) ts
        else done (act.plain ⟨.EXIT, by decide⟩) ts
    | .EXTERN =>
        match ts with
        | .strgLiteral strg :: ts => done (act.externStrg strg) ts
        | _ => refuse
    | k => if hk : k ∈ plainInstr then done (act.plain ⟨k, hk⟩) ts else refuse

def instruction : List Token → m (Option (act.Instr × List Token))
  | .keyword .DATA :: ts => varDef act ts
  | .keyword .INCLUDE :: .strgLiteral name :: ts => done (act.includeFile name) ts
  | .keyword k :: ts => assemblerInstruction act k ts
  | .name name :: colon :: ts => done (act.label name) ts
  | _ => refuse

/-- There are no more instructions than tokens. -/
def instructionList : ℕ → List Token → m (Option (List act.Instr × List Token))
  | 0, _ => refuse
  | n + 1, ts =>
      andThen (instruction act ts) fun i ts =>
        if ts.isEmpty then done (pure [i]) []
        else andThen (instructionList n ts) fun is ts => done (pure (i :: is)) ts

end Productions

/-! ## Tokens -/

@[simp] theorem register_registerToken (r : Register) : register (registerToken r) = some r := by
  by_cases hr : r = 32
  · subst hr
    rfl
  · have hne : r.val ≠ 32 := fun h => hr (Fin.ext h)
    have hlt := r.isLt
    simp only [registerToken, if_neg hr, register]
    rw [dif_pos (by omega)]
    simp

theorem eq_registerToken {t : Token} {r : Register} (h : register t = some r) :
    t = registerToken r := by
  cases t with
  | register n =>
      simp only [register] at h
      split at h
      · next hn =>
          obtain rfl := Option.some.inj h
          have hne : (⟨n - 1, by omega⟩ : Register) ≠ 32 := by
            rw [ne_eq, Fin.ext_iff]
            change n - 1 ≠ 32
            omega
          rw [registerToken, if_neg hne]
          exact congrArg Token.register (by change n = n - 1 + 1; omega)
      · cases h
  | keyword k =>
      cases k with
      | SP =>
          obtain rfl := Option.some.inj h
          rfl
      | _ => cases h
  | _ => cases h

@[simp] theorem constant_constantToken (c : IndexConstant) : constant (constantToken c) = some c := by
  cases c <;> rfl

theorem eq_constantToken {t : Token} {c : IndexConstant} (h : constant t = some c) :
    t = constantToken c := by
  cases t with
  | intLiteral val =>
      obtain rfl := Option.some.inj h
      rfl
  | uintLiteral val =>
      obtain rfl := Option.some.inj h
      rfl
  | _ => cases h

@[simp] theorem varConstant_token (c : VarConstant) : varConstant c.token = some c := by
  cases c with
  | indexConstant c => cases c <;> rfl
  | _ => rfl

theorem eq_varConstant_token {t : Token} {c : VarConstant} (h : varConstant t = some c) :
    t = c.token := by
  cases t with
  | intLiteral val =>
      obtain rfl := Option.some.inj h
      rfl
  | uintLiteral val =>
      obtain rfl := Option.some.inj h
      rfl
  | floatLiteral fval =>
      obtain rfl := Option.some.inj h
      rfl
  | strgLiteral val =>
      obtain rfl := Option.some.inj h
      rfl
  | _ => cases h

@[simp] theorem indexLexeme_lexemeToken (l : OperatorPrecedence.Lexeme IndexConstant IndexOp) :
    indexLexeme (lexemeToken l) = some l := by
  cases l with
  | leaf c => cases c <;> rfl
  | operator op => cases op <;> rfl
  | openParen => rfl
  | closeParen => rfl

theorem eq_lexemeToken {t : Token} {l : OperatorPrecedence.Lexeme IndexConstant IndexOp}
    (h : indexLexeme t = some l) : t = lexemeToken l := by
  unfold indexLexeme at h
  split at h
  case h_8 =>
    obtain ⟨c, hc, rfl⟩ := Option.map_eq_some_iff.mp h
    exact eq_constantToken hc
  all_goals
    obtain rfl := Option.some.inj h
    rfl

theorem splitIndex_append (ls : List (OperatorPrecedence.Lexeme IndexConstant IndexOp))
    (rest : List Token) :
    splitIndex (ls.map lexemeToken ++ rbracket :: rest) = (ls, rbracket :: rest) := by
  induction ls with
  | nil => rfl
  | cons l ls ih => simp [splitIndex, ih]

theorem eq_of_splitIndex {ts rest : List Token}
    {ls : List (OperatorPrecedence.Lexeme IndexConstant IndexOp)}
    (h : splitIndex ts = (ls, rest)) : ts = ls.map lexemeToken ++ rest := by
  induction ts generalizing ls rest with
  | nil =>
      obtain ⟨rfl, rfl⟩ := Prod.mk.inj h
      rfl
  | cons t ts ih =>
      rw [splitIndex] at h
      split at h
      · next l hl =>
          obtain ⟨rfl, rfl⟩ := Prod.mk.inj h
          rw [List.map_cons, List.cons_append, ← ih rfl, eq_lexemeToken hl]
      · obtain ⟨rfl, rfl⟩ := Prod.mk.inj h
        rfl

theorem lexemeToken_ne_rbracket (l : OperatorPrecedence.Lexeme IndexConstant IndexOp) :
    lexemeToken l ≠ rbracket := by
  intro h
  have hread := indexLexeme_lexemeToken l
  rw [h] at hread
  cases hread

theorem boundary_head {t : Token} {ts : List Token} (h : boundary (t :: ts) = true) :
    startsInstruction t = true := h

theorem head_ne_lbracket {ts : List Token} (h : boundary ts = true) :
    ts.head? ≠ some lbracket := by
  cases ts with
  | nil => simp
  | cons t ts =>
      rw [List.head?_cons, ne_eq, Option.some.injEq]
      rintro rfl
      cases h

theorem mode1_head (mode : Mode1) : ∃ t ts, mode.fringe = t :: ts ∧ constant t = none := by
  have hregister : ∀ r, constant (registerToken r) = none := by
    intro r
    by_cases hr : r = 32
    · rw [registerToken, if_pos hr]
      rfl
    · rw [registerToken, if_neg hr]
      rfl
  rcases mode with r | ⟨r, _ | expr⟩ | strg
  · exact ⟨_, _, rfl, hregister r⟩
  · exact ⟨_, _, rfl, hregister r⟩
  · exact ⟨_, _, rfl, hregister r⟩
  · exact ⟨_, _, rfl, rfl⟩

theorem mode2_head (mode : Mode2) :
    ∃ t ts, mode.fringe = t :: ts ∧ ∀ fval, t ≠ .floatLiteral fval := by
  cases mode with
  | mode1 mode =>
      have hregister : ∀ r fval, registerToken r ≠ .floatLiteral fval := by
        intro r fval
        rw [registerToken]
        split <;> simp
      rcases mode with r | ⟨r, _ | expr⟩ | strg
      · exact ⟨_, _, rfl, hregister r⟩
      · exact ⟨_, _, rfl, hregister r⟩
      · exact ⟨_, _, rfl, hregister r⟩
      · exact ⟨_, _, rfl, by simp⟩
  | indexConstant c => exact ⟨_, _, rfl, by cases c <;> simp [constantToken]⟩

theorem constant_of_startsInstruction {t : Token} (h : startsInstruction t = true) :
    constant t = none := by
  cases t with
  | intLiteral val => cases h
  | uintLiteral val => cases h
  | _ => rfl

theorem startsInstruction_fringe (i : Instruction) :
    ∃ t ts, i.fringe = t :: ts ∧ startsInstruction t = true := by
  have hkeyword : ∀ {k : Keyword} {l : List Keyword}, k ∈ l →
      (∀ k' ∈ l, startsInstruction (.keyword k') = true) →
      startsInstruction (.keyword k) = true := fun hk hall => hall _ hk
  cases i with
  | assembler instr =>
      cases instr with
      | arith k dst lhs rhs => exact ⟨_, _, rfl, hkeyword k.2 (by decide)⟩
      | ctrl k dst => exact ⟨_, _, rfl, hkeyword k.2 (by decide)⟩
      | comp k lhs rhs => exact ⟨_, _, rfl, hkeyword k.2 (by decide)⟩
      | plain k => exact ⟨_, _, rfl, hkeyword k.2 (by decide)⟩
      | _ => exact ⟨_, _, rfl, rfl⟩
  | varDef d => cases d <;> exact ⟨_, _, rfl, rfl⟩
  | label name => exact ⟨_, _, rfl, rfl⟩
  | includeFile name => exact ⟨_, _, rfl, rfl⟩

/-- Behind an instruction comes the end or another one. -/
theorem boundary_fringe (source : List Instruction) : boundary (fringe source) = true := by
  cases source with
  | nil => rfl
  | cons i source =>
      obtain ⟨t, ts, hfringe, ht⟩ := startsInstruction_fringe i
      rw [fringe, List.flatMap_cons, hfringe]
      exact ht

end SimpleVm.Syntax
