import SimpleVm.Assembler.Grammar

/-!
# The trees of a source

The parser reads the fringe of every tree that keeps the precedences, whatever
the actions are, and does what evaluating the tree does. With the actions that
build the trees, it reads nothing else.
-/

namespace SimpleVm.Syntax

open SimpleVm.Parser (IndexConstant IndexOp)
open Reading

/-! ## Trees are read -/

section Reads

variable {m : Type → Type} [Monad m] (act : Actions m)

theorem mode1_cons {t : Token} {r : Register} (h : register t = some r) (ts : List Token) :
    mode1 act (t :: ts) = index act r ts := by
  have hname : ∀ strg, t ≠ .name strg := by
    rintro strg rfl
    cases h
  rw [mode1, h]
  exact hname

theorem mode2_constant (c : IndexConstant) (ts : List Token) :
    mode2 act (constantToken c :: ts) =
      andThen (done (act.indexConstant c) ts) fun c ts => done (act.mode2Constant c) ts := by
  rw [mode2, constant_constantToken]

theorem readRegister_token (r : Register) (rest : List Token) :
    readRegister (m := m) (registerToken r :: rest) = done (pure r) rest := by
  rw [readRegister, register_registerToken]

theorem readConstant_token (c : IndexConstant) (rest : List Token) :
    readConstant act (constantToken c :: rest) = done (act.indexConstant c) rest := by
  rw [readConstant, constant_constantToken]

theorem readVarConstant_token (c : VarConstant) (rest : List Token) :
    readVarConstant act (c.token :: rest) = done (c.eval act) rest := by
  rw [readVarConstant, varConstant_token]

variable [LawfulMonad m]

theorem indexExpr_fringe {expr : IndexExpr} (h : expr.Ordered level) (rest : List Token) :
    indexExpr act (indexFringe expr ++ rbracket :: rest) = done (expr.eval act.expr) rest := by
  simp only [indexExpr, indexFringe, splitIndex_append, OperatorPrecedence.parse_fringe h,
    whole_some]

theorem mode1_fringe {mode : Mode1} (h : mode.Ordered) {rest : List Token}
    (hrest : rest.head? ≠ some lbracket) :
    mode1 act (mode.fringe ++ rest) = done (mode.eval act) rest := by
  cases mode with
  | register r =>
      rw [Mode1.fringe, List.singleton_append, mode1_cons act (register_registerToken r),
        index.eq_def]
      split
      · exact absurd rfl hrest
      · exact absurd rfl hrest
      · rfl
  | registerIndex r ix =>
      cases ix with
      | none => exact mode1_cons act (register_registerToken r) _
      | some expr =>
          have hsplit : (Mode1.registerIndex r (some expr)).fringe ++ rest =
              registerToken r :: lbracket :: (indexFringe expr ++ rbracket :: rest) := by
            simp [Mode1.fringe]
          obtain ⟨l, ls, hfringe⟩ := List.exists_cons_of_ne_nil expr.fringe_ne_nil
          have hhead : indexFringe expr ++ rbracket :: rest =
              lexemeToken l :: (ls.map lexemeToken ++ rbracket :: rest) := by
            simp [indexFringe, hfringe]
          have hindex : index act r (lbracket :: (indexFringe expr ++ rbracket :: rest)) =
              andThen (indexExpr act (indexFringe expr ++ rbracket :: rest)) fun e ts =>
                done (act.mode1Index r (some e)) ts := by
            rw [index]
            intro ts heq
            rw [hhead] at heq
            exact lexemeToken_ne_rbracket l (List.cons.inj heq).1
          rw [hsplit, mode1_cons act (register_registerToken r), hindex, indexExpr_fringe act h,
            done_andThen]
          simp [Mode1.eval, done]
  | name strg => rfl

theorem mode2_fringe {mode : Mode2} (h : mode.Ordered) {rest : List Token}
    (hrest : rest.head? ≠ some lbracket) :
    mode2 act (mode.fringe ++ rest) = done (mode.eval act) rest := by
  cases mode with
  | mode1 mode =>
      obtain ⟨t, ts, hfringe, ht⟩ := mode1_head mode
      have hread := mode1_fringe act h hrest
      rw [hfringe, List.cons_append] at hread
      rw [Mode2.fringe, hfringe, List.cons_append, mode2, ht]
      simp only [hread, done_andThen, bind_done]
      rfl
  | indexConstant c =>
      rw [Mode2.fringe, List.singleton_append, mode2_constant, done_andThen, bind_done]
      rfl

theorem mode3_fringe {mode : Mode3} (h : mode.Ordered) {rest : List Token}
    (hrest : rest.head? ≠ some lbracket) :
    mode3 act (mode.fringe ++ rest) = done (mode.eval act) rest := by
  cases mode with
  | mode2 mode =>
      obtain ⟨t, ts, hfringe, ht⟩ := mode2_head mode
      have hread := mode2_fringe act h hrest
      rw [hfringe, List.cons_append] at hread
      rw [Mode3.fringe, hfringe, List.cons_append, mode3, hread, done_andThen, bind_done]
      · rfl
      · rintro fval ts' heq
        exact ht fval (List.cons.inj heq).1
  | float fval => rfl

theorem moreConstants_fringe (vs : act.VarConsts) (cs : List VarConstant) (rest : List Token) :
    moreConstants act vs (cs.flatMap (fun c => [comma, c.token]) ++ rbrace :: rest) =
      done (evalMore act vs cs) rest := by
  induction cs generalizing vs with
  | nil => rfl
  | cons c cs ih =>
      have hsplit : (c :: cs).flatMap (fun c => [comma, c.token]) ++ rbrace :: rest =
          comma :: c.token :: (cs.flatMap (fun c => [comma, c.token]) ++ rbrace :: rest) := rfl
      rw [hsplit, moreConstants, varConstant_token]
      simp only [ih, bind_done]
      rfl

theorem varDef_fringe (d : VarDef) {rest : List Token} (hrest : boundary rest = true) :
    ∃ ts, d.fringe ++ rest = .keyword .DATA :: ts ∧ varDef act ts = done (d.eval act) rest := by
  cases d with
  | slot name =>
      refine ⟨.name name :: rest, rfl, ?_⟩
      rw [varDef.eq_def]
      split
      · next heq =>
          obtain ⟨-, rfl⟩ := List.cons.inj heq
          cases hrest
      · next heq =>
          obtain ⟨-, rfl⟩ := List.cons.inj heq
          cases hrest
      · next heq =>
          obtain ⟨-, rfl⟩ := List.cons.inj heq
          cases hrest
      · next heq =>
          obtain ⟨hname, rfl⟩ := List.cons.inj heq
          obtain rfl := Token.name.inj hname
          exact if_pos hrest
      · next hno => exact absurd rfl (hno name rest)
  | slots name k =>
      refine ⟨.name name :: lbracket :: constantToken k :: rbracket :: rest, rfl, ?_⟩
      rw [varDef, readConstant_token, done_andThen]
      simp only [expect_cons, bind_done]
      rfl
  | init name c =>
      refine ⟨.name name :: equals :: c.token :: rest, rfl, ?_⟩
      rw [varDef, readVarConstant_token, done_andThen, bind_done]
      · rfl
      · intro ts heq
        have htoken := (List.cons.inj heq).1
        rcases c with (_ | _) | _ | _ <;> cases htoken
  | inits name first more =>
      refine ⟨.name name :: equals :: lbrace :: first.token ::
        (more.flatMap (fun c => [comma, c.token]) ++ rbrace :: rest), by simp [VarDef.fringe], ?_⟩
      rw [varDef, readVarConstant_token, done_andThen]
      simp only [done_andThen, moreConstants_fringe, bind_done]
      rfl

theorem assemblerInstruction_fringe {instr : AssemblerInstruction} (h : instr.Ordered)
    {rest : List Token} (hrest : boundary rest = true) :
    ∃ k ts, instr.fringe ++ rest = .keyword k :: ts ∧ k ≠ .DATA ∧ k ≠ .INCLUDE ∧
      assemblerInstruction act k ts = done (instr.eval act) rest := by
  have hbracket := head_ne_lbracket hrest
  cases instr with
  | mov dst src =>
      refine ⟨.MOV, dst.fringe ++ comma :: (src.fringe ++ rest),
        by simp [AssemblerInstruction.fringe], by decide, by decide, ?_⟩
      change andThen (mode1 act _) _ = _
      rw [mode1_fringe act h.1 (by simp), done_andThen]
      simp only [expect_cons, mode3_fringe act h.2 hbracket, done_andThen, bind_done]
      rfl
  | push src =>
      refine ⟨.PUSH, src.fringe ++ rest, rfl, by decide, by decide, ?_⟩
      change andThen (mode3 act _) _ = _
      rw [mode3_fringe act h hbracket, done_andThen, bind_done]
      rfl
  | pop dst =>
      refine ⟨.POP, dst.fringe ++ rest, rfl, by decide, by decide, ?_⟩
      change andThen (mode1 act _) _ = _
      rw [mode1_fringe act h hbracket, done_andThen, bind_done]
      rfl
  | cpy dst src count =>
      refine ⟨.CPY, dst.fringe ++ comma :: registerToken src :: comma :: constantToken count :: rest,
        by simp [AssemblerInstruction.fringe], by decide, by decide, ?_⟩
      change andThen (mode1 act _) _ = _
      rw [mode1_fringe act h (by simp), done_andThen]
      simp only [expect_cons, readRegister_token, readConstant_token, done_andThen, bind_done,
        pure_bind]
      rfl
  | arith k dst lhs rhs =>
      obtain ⟨k, hk⟩ := k
      have hne : ∀ k ∈ arithInstr, k ≠ .DATA ∧ k ≠ .INCLUDE := by decide
      refine ⟨k, dst.fringe ++ comma :: registerToken lhs :: comma :: registerToken rhs :: rest,
        by simp [AssemblerInstruction.fringe], (hne k hk).1, (hne k hk).2, ?_⟩
      rw [assemblerInstruction.eq_def, dif_pos hk, mode1_fringe act h (by simp), done_andThen]
      simp only [expect_cons, readRegister_token, done_andThen, bind_done, pure_bind]
      rfl
  | ctrl k dst =>
      obtain ⟨k, hk⟩ := k
      have hne : ∀ k ∈ ctrlInstr, k ≠ .DATA ∧ k ≠ .INCLUDE ∧ k ∉ arithInstr := by decide
      obtain ⟨hdata, hinclude, harith⟩ := hne k hk
      refine ⟨k, dst.fringe ++ rest, rfl, hdata, hinclude, ?_⟩
      rw [assemblerInstruction.eq_def, dif_neg harith, dif_pos hk, mode1_fringe act h hbracket,
        done_andThen, bind_done]
      rfl
  | comp k lhs rhs =>
      obtain ⟨k, hk⟩ := k
      have hne : ∀ k ∈ compInstr, k ≠ .DATA ∧ k ≠ .INCLUDE ∧ k ∉ arithInstr ∧ k ∉ ctrlInstr := by
        decide
      obtain ⟨hdata, hinclude, harith, hctrl⟩ := hne k hk
      refine ⟨k, lhs.fringe ++ comma :: (rhs.fringe ++ rest),
        by simp [AssemblerInstruction.fringe], hdata, hinclude, ?_⟩
      rw [assemblerInstruction.eq_def, dif_neg harith, dif_neg hctrl, dif_pos hk,
        mode2_fringe act h.1 (by simp), done_andThen]
      simp only [expect_cons, mode2_fringe act h.2 hbracket, done_andThen, bind_done]
      rfl
  | plain k =>
      obtain ⟨k, hk⟩ := k
      have hne : ∀ k ∈ plainInstr, k ≠ .DATA ∧ k ≠ .INCLUDE := by decide
      refine ⟨k, rest, rfl, (hne k hk).1, (hne k hk).2, ?_⟩
      have hnone : (rest.head?.bind constant).isSome = false := by
        cases rest with
        | nil => rfl
        | cons t ts => simp [constant_of_startsInstruction (boundary_head hrest)]
      simp only [plainInstr, List.mem_cons, List.not_mem_nil, or_false] at hk
      rcases hk with rfl | rfl | rfl | rfl | rfl
      · rfl
      · rfl
      · exact if_neg (Bool.eq_false_iff.mp hnone)
      · rfl
      · rfl
  | exit code =>
      refine ⟨.EXIT, constantToken code :: rest, rfl, by decide, by decide, ?_⟩
      have hsome : ((constantToken code :: rest).head?.bind constant).isSome = true := by simp
      change (if ((constantToken code :: rest).head?.bind constant).isSome then _ else _) = _
      rw [if_pos hsome, readConstant_token, done_andThen, bind_done]
      rfl
  | externStrg strg => exact ⟨.EXTERN, .strgLiteral strg :: rest, rfl, by decide, by decide, rfl⟩

theorem instruction_fringe {i : Instruction} (h : i.Ordered) {rest : List Token}
    (hrest : boundary rest = true) :
    instruction act (i.fringe ++ rest) = done (i.eval act) rest := by
  cases i with
  | assembler instr =>
      obtain ⟨k, ts, hfringe, hdata, hinclude, hread⟩ := assemblerInstruction_fringe act h hrest
      rw [Instruction.fringe, hfringe, instruction, hread]
      · rfl
      · exact hdata
      · exact fun _ _ _ => hinclude
  | varDef d =>
      obtain ⟨ts, hfringe, hread⟩ := varDef_fringe act d hrest
      rw [Instruction.fringe, hfringe]
      exact hread
  | label name => rfl
  | includeFile name => rfl

/-- The instructions one after the other. -/
def evalList : List Instruction → m (List act.Instr)
  | [] => pure []
  | i :: source => do
      let v ← i.eval act
      let vs ← evalList source
      pure (v :: vs)

theorem instructionList_fringe {source : List Instruction} (hne : source ≠ [])
    (h : ∀ i ∈ source, i.Ordered) {n : ℕ} (hn : source.length ≤ n) :
    instructionList act n (fringe source) = done (evalList act source) [] := by
  induction source generalizing n with
  | nil => exact absurd rfl hne
  | cons i source ih =>
      rw [List.forall_mem_cons] at h
      obtain ⟨n, rfl⟩ : ∃ k, n = k + 1 := Nat.exists_eq_succ_of_ne_zero (by
        rw [List.length_cons] at hn
        omega)
      have hsplit : fringe (i :: source) = i.fringe ++ fringe source := rfl
      rw [hsplit, instructionList, instruction_fringe act h.1 (boundary_fringe source),
        done_andThen]
      cases source with
      | nil =>
          have hempty : (fringe []).isEmpty = true := rfl
          simp only [hempty, if_true, bind_done, evalList, pure_bind]
      | cons i' source =>
          have hrest := ih (List.cons_ne_nil i' source) h.2 (Nat.le_of_succ_le_succ hn)
          obtain ⟨t, ts, hfringe, -⟩ := startsInstruction_fringe i'
          have hcons : (fringe (i' :: source)).isEmpty = false := by
            rw [fringe, List.flatMap_cons, hfringe]
            rfl
          simp only [hcons, Bool.false_eq_true, if_false, hrest, done_andThen, bind_done]
          rfl

end Reads

/-! ## Only trees are read -/

/-- The actions that build the trees. -/
def treeActions : Actions Id where
  Const := IndexConstant
  Expr := IndexExpr
  Mode1 := Mode1
  Mode2 := Mode2
  Mode3 := Mode3
  VarConst := VarConstant
  VarConsts := VarConstant × List VarConstant
  Instr := Instruction
  indexConstant c := c
  exprConstant := .leaf
  exprBinary := .binary
  exprParen := .paren
  mode1Register := .register
  mode1Index := .registerIndex
  mode1Name := .name
  mode2Mode1 := .mode1
  mode2Constant := .indexConstant
  mode3Mode2 := .mode2
  mode3Float := .float
  varIndex := .indexConstant
  varFloat := .float
  varStrg := .strg
  createList c := (c, [])
  addToList cs c := (cs.1, cs.2 ++ [c])
  slot name := .varDef (.slot name)
  slots name k := .varDef (.slots name k)
  init name c := .varDef (.init name c)
  inits name cs := .varDef (.inits name cs.1 cs.2)
  mov dst src := .assembler (.mov dst src)
  push src := .assembler (.push src)
  pop dst := .assembler (.pop dst)
  cpy dst src count := .assembler (.cpy dst src count)
  arith k dst lhs rhs := .assembler (.arith k dst lhs rhs)
  ctrl k dst := .assembler (.ctrl k dst)
  comp k lhs rhs := .assembler (.comp k lhs rhs)
  plain k := .assembler (.plain k)
  exit code := .assembler (.exit code)
  externStrg strg := .assembler (.externStrg strg)
  label := .label
  includeFile := .includeFile

section Sound

variable {ts rest : List Token}

theorem indexExpr_sound {expr : IndexExpr}
    (h : (indexExpr treeActions ts).run = some (expr, rest)) :
    expr.Ordered level ∧ ts = indexFringe expr ++ rbracket :: rest := by
  rw [indexExpr] at h
  split at h
  · next ls rest' hsplit =>
      have hts := eq_of_splitIndex hsplit
      cases htree : OperatorPrecedence.parseTree level ls with
      | none =>
          rw [show OperatorPrecedence.parse level treeActions.expr ls = pure none from htree] at h
          cases h
      | some e =>
          rw [show OperatorPrecedence.parse level treeActions.expr ls = pure (some e) from htree] at h
          obtain ⟨rfl, rfl⟩ := Prod.mk.inj (Option.some.inj h)
          obtain ⟨hordered, hfringe⟩ := OperatorPrecedence.parseTree_eq_some_iff.mp htree
          exact ⟨hordered, by rw [hts, ← hfringe]; rfl⟩
  · cases h

theorem index_sound {r : Register} {mode : Mode1}
    (h : (index treeActions r ts).run = some (mode, rest)) :
    mode.Ordered ∧ registerToken r :: ts = mode.fringe ++ rest := by
  rw [index.eq_def] at h
  split at h
  · obtain ⟨rfl, rfl⟩ := Prod.mk.inj (Option.some.inj h)
    exact ⟨trivial, rfl⟩
  · obtain ⟨expr, mid, hexpr, hdone⟩ := andThen_eq_some.mp h
    obtain ⟨rfl, rfl⟩ := Prod.mk.inj (Option.some.inj hdone)
    obtain ⟨hordered, rfl⟩ := indexExpr_sound hexpr
    exact ⟨hordered, by simp [Mode1.fringe, treeActions]⟩
  · obtain ⟨rfl, rfl⟩ := Prod.mk.inj (Option.some.inj h)
    exact ⟨trivial, rfl⟩

theorem mode1_sound {mode : Mode1} (h : (mode1 treeActions ts).run = some (mode, rest)) :
    mode.Ordered ∧ ts = mode.fringe ++ rest := by
  rw [mode1.eq_def] at h
  split at h
  · obtain ⟨rfl, rfl⟩ := Prod.mk.inj (Option.some.inj h)
    exact ⟨trivial, rfl⟩
  · split at h
    · next r hr =>
        rw [eq_registerToken hr]
        exact index_sound h
    · cases h
  · cases h

theorem mode2_sound {mode : Mode2} (h : (mode2 treeActions ts).run = some (mode, rest)) :
    mode.Ordered ∧ ts = mode.fringe ++ rest := by
  rw [mode2.eq_def] at h
  split at h
  · next t ts =>
      split at h
      · next c hc =>
          obtain ⟨c', mid, hread, hdone⟩ := andThen_eq_some.mp h
          obtain ⟨rfl, rfl⟩ := Prod.mk.inj (Option.some.inj hread)
          obtain ⟨rfl, rfl⟩ := Prod.mk.inj (Option.some.inj hdone)
          exact ⟨trivial, by rw [eq_constantToken hc]; rfl⟩
      · obtain ⟨mode, mid, hread, hdone⟩ := andThen_eq_some.mp h
        obtain ⟨rfl, rfl⟩ := Prod.mk.inj (Option.some.inj hdone)
        exact mode1_sound hread
  · cases h

theorem mode3_sound {mode : Mode3} (h : (mode3 treeActions ts).run = some (mode, rest)) :
    mode.Ordered ∧ ts = mode.fringe ++ rest := by
  rw [mode3.eq_def] at h
  split at h
  · next fval ts =>
      obtain ⟨rfl, rfl⟩ := Prod.mk.inj (Option.some.inj h)
      exact ⟨trivial, rfl⟩
  · obtain ⟨mode, mid, hread, hdone⟩ := andThen_eq_some.mp h
    obtain ⟨rfl, rfl⟩ := Prod.mk.inj (Option.some.inj hdone)
    exact mode2_sound hread

theorem readRegister_sound {r : Register}
    (h : (readRegister ts : Id (Option (Register × List Token))).run = some (r, rest)) :
    ts = registerToken r :: rest := by
  rw [readRegister.eq_def] at h
  split at h
  · split at h
    · next r' hr =>
        obtain ⟨rfl, rfl⟩ := Prod.mk.inj (Option.some.inj h)
        rw [eq_registerToken hr]
        rfl
    · cases h
  · cases h

theorem readConstant_sound {c : IndexConstant}
    (h : (readConstant treeActions ts).run = some (c, rest)) : ts = constantToken c :: rest := by
  rw [readConstant.eq_def] at h
  split at h
  · split at h
    · next c' hc =>
        obtain ⟨rfl, rfl⟩ := Prod.mk.inj (Option.some.inj h)
        rw [eq_constantToken hc]
        rfl
    · cases h
  · cases h

theorem eval_treeActions (c : VarConstant) : c.eval treeActions = c := by
  cases c <;> rfl

theorem readVarConstant_sound {c : VarConstant}
    (h : (readVarConstant treeActions ts).run = some (c, rest)) : ts = c.token :: rest := by
  rw [readVarConstant.eq_def] at h
  split at h
  · split at h
    · next c' hc =>
        rw [eval_treeActions] at h
        obtain ⟨rfl, rfl⟩ := Prod.mk.inj (Option.some.inj h)
        rw [eq_varConstant_token hc]
    · cases h
  · cases h

theorem moreConstants_sound {cs cs' : VarConstant × List VarConstant}
    (h : (moreConstants treeActions cs ts).run = some (cs', rest)) :
    ∃ more, cs' = (cs.1, cs.2 ++ more) ∧
      ts = more.flatMap (fun c => [comma, c.token]) ++ rbrace :: rest := by
  fun_induction moreConstants treeActions cs ts with
  | case1 cs ts =>
      obtain ⟨rfl, rfl⟩ := Prod.mk.inj (Option.some.inj h)
      exact ⟨[], by rw [List.append_nil]; rfl, rfl⟩
  | case2 cs t ts c hc ih =>
      rw [eval_treeActions] at h
      obtain ⟨more, rfl, rfl⟩ := ih (cs.1, cs.2 ++ [c]) h
      refine ⟨c :: more, by simp, ?_⟩
      rw [eq_varConstant_token hc]
      rfl
  | case3 => cases h
  | case4 => cases h

theorem varDef_sound {i : Instruction} (h : (varDef treeActions ts).run = some (i, rest)) :
    ∃ d, i = .varDef d ∧ .keyword .DATA :: ts = d.fringe ++ rest := by
  rw [varDef.eq_def] at h
  split at h
  · next name ts =>
      obtain ⟨k, mid, hk, h⟩ := andThen_eq_some.mp h
      obtain ⟨ts', rfl, hdone⟩ := expect_eq_some.mp h
      obtain ⟨rfl, rfl⟩ := Prod.mk.inj (Option.some.inj hdone)
      exact ⟨.slots name k, rfl, by rw [readConstant_sound hk]; rfl⟩
  · next name ts =>
      obtain ⟨first, mid, hfirst, h⟩ := andThen_eq_some.mp h
      obtain ⟨cs, mid', hcreate, h⟩ := andThen_eq_some.mp h
      obtain ⟨rfl, rfl⟩ := Prod.mk.inj (Option.some.inj hcreate)
      obtain ⟨cs, mid'', hmore, hdone⟩ := andThen_eq_some.mp h
      obtain ⟨rfl, rfl⟩ := Prod.mk.inj (Option.some.inj hdone)
      obtain ⟨more, rfl, hts⟩ := moreConstants_sound hmore
      refine ⟨.inits name first more, rfl, ?_⟩
      rw [readVarConstant_sound hfirst, hts]
      simp [VarDef.fringe]
  · next name ts hno =>
      obtain ⟨c, mid, hc, hdone⟩ := andThen_eq_some.mp h
      obtain ⟨rfl, rfl⟩ := Prod.mk.inj (Option.some.inj hdone)
      exact ⟨.init name c, rfl, by rw [readVarConstant_sound hc]; rfl⟩
  · next name ts hno₁ hno₂ hno₃ =>
      split at h
      · obtain ⟨rfl, rfl⟩ := Prod.mk.inj (Option.some.inj h)
        exact ⟨.slot name, rfl, rfl⟩
      · cases h
  · cases h

theorem assemblerInstruction_sound {k : Keyword} {i : Instruction}
    (h : (assemblerInstruction treeActions k ts).run = some (i, rest)) :
    i.Ordered ∧ .keyword k :: ts = i.fringe ++ rest := by
  rw [assemblerInstruction.eq_def] at h
  split at h
  · next hk =>
      obtain ⟨dst, mid, hdst, h⟩ := andThen_eq_some.mp h
      obtain ⟨mid, rfl, h⟩ := expect_eq_some.mp h
      obtain ⟨lhs, mid, hlhs, h⟩ := andThen_eq_some.mp h
      obtain ⟨mid, rfl, h⟩ := expect_eq_some.mp h
      obtain ⟨rhs, mid, hrhs, hdone⟩ := andThen_eq_some.mp h
      obtain ⟨rfl, rfl⟩ := Prod.mk.inj (Option.some.inj hdone)
      obtain ⟨hordered, rfl⟩ := mode1_sound hdst
      refine ⟨hordered, ?_⟩
      rw [readRegister_sound hlhs, readRegister_sound hrhs]
      simp [treeActions, Instruction.fringe, AssemblerInstruction.fringe]
  split at h
  · next hk =>
      obtain ⟨dst, mid, hdst, hdone⟩ := andThen_eq_some.mp h
      obtain ⟨rfl, rfl⟩ := Prod.mk.inj (Option.some.inj hdone)
      obtain ⟨hordered, rfl⟩ := mode1_sound hdst
      exact ⟨hordered, rfl⟩
  split at h
  · next hk =>
      obtain ⟨lhs, mid, hlhs, h⟩ := andThen_eq_some.mp h
      obtain ⟨mid, rfl, h⟩ := expect_eq_some.mp h
      obtain ⟨rhs, mid, hrhs, hdone⟩ := andThen_eq_some.mp h
      obtain ⟨rfl, rfl⟩ := Prod.mk.inj (Option.some.inj hdone)
      obtain ⟨hordered, rfl⟩ := mode2_sound hlhs
      obtain ⟨hordered', rfl⟩ := mode2_sound hrhs
      exact ⟨⟨hordered, hordered'⟩, by
        simp [treeActions, Instruction.fringe, AssemblerInstruction.fringe]⟩
  split at h
  · obtain ⟨dst, mid, hdst, h⟩ := andThen_eq_some.mp h
    obtain ⟨mid, rfl, h⟩ := expect_eq_some.mp h
    obtain ⟨src, mid, hsrc, hdone⟩ := andThen_eq_some.mp h
    obtain ⟨rfl, rfl⟩ := Prod.mk.inj (Option.some.inj hdone)
    obtain ⟨hordered, rfl⟩ := mode1_sound hdst
    obtain ⟨hordered', rfl⟩ := mode3_sound hsrc
    exact ⟨⟨hordered, hordered'⟩, by
      simp [treeActions, Instruction.fringe, AssemblerInstruction.fringe]⟩
  · obtain ⟨src, mid, hsrc, hdone⟩ := andThen_eq_some.mp h
    obtain ⟨rfl, rfl⟩ := Prod.mk.inj (Option.some.inj hdone)
    obtain ⟨hordered, rfl⟩ := mode3_sound hsrc
    exact ⟨hordered, rfl⟩
  · obtain ⟨dst, mid, hdst, hdone⟩ := andThen_eq_some.mp h
    obtain ⟨rfl, rfl⟩ := Prod.mk.inj (Option.some.inj hdone)
    obtain ⟨hordered, rfl⟩ := mode1_sound hdst
    exact ⟨hordered, rfl⟩
  · obtain ⟨dst, mid, hdst, h⟩ := andThen_eq_some.mp h
    obtain ⟨mid, rfl, h⟩ := expect_eq_some.mp h
    obtain ⟨src, mid, hsrc, h⟩ := andThen_eq_some.mp h
    obtain ⟨mid, rfl, h⟩ := expect_eq_some.mp h
    obtain ⟨count, mid, hcount, hdone⟩ := andThen_eq_some.mp h
    obtain ⟨rfl, rfl⟩ := Prod.mk.inj (Option.some.inj hdone)
    obtain ⟨hordered, rfl⟩ := mode1_sound hdst
    refine ⟨hordered, ?_⟩
    rw [readRegister_sound hsrc, readConstant_sound hcount]
    simp [treeActions, Instruction.fringe, AssemblerInstruction.fringe]
  · split at h
    · obtain ⟨code, mid, hcode, hdone⟩ := andThen_eq_some.mp h
      obtain ⟨rfl, rfl⟩ := Prod.mk.inj (Option.some.inj hdone)
      exact ⟨trivial, by rw [readConstant_sound hcode]; rfl⟩
    · obtain ⟨rfl, rfl⟩ := Prod.mk.inj (Option.some.inj h)
      exact ⟨trivial, rfl⟩
  · split at h
    · obtain ⟨rfl, rfl⟩ := Prod.mk.inj (Option.some.inj h)
      exact ⟨trivial, rfl⟩
    · cases h
  · split at h
    · obtain ⟨rfl, rfl⟩ := Prod.mk.inj (Option.some.inj h)
      exact ⟨trivial, rfl⟩
    · cases h

theorem instruction_sound {i : Instruction}
    (h : (instruction treeActions ts).run = some (i, rest)) :
    i.Ordered ∧ ts = i.fringe ++ rest := by
  rw [instruction.eq_def] at h
  split at h
  · obtain ⟨d, rfl, hts⟩ := varDef_sound h
    exact ⟨trivial, hts⟩
  · obtain ⟨rfl, rfl⟩ := Prod.mk.inj (Option.some.inj h)
    exact ⟨trivial, rfl⟩
  · exact assemblerInstruction_sound h
  · obtain ⟨rfl, rfl⟩ := Prod.mk.inj (Option.some.inj h)
    exact ⟨trivial, rfl⟩
  · cases h

theorem instructionList_sound {n : ℕ} {source : List Instruction}
    (h : (instructionList treeActions n ts).run = some (source, rest)) :
    Derives ts source ∧ rest = [] := by
  induction n generalizing ts source with
  | zero => cases h
  | succ n ih =>
      rw [instructionList] at h
      obtain ⟨i, mid, hi, hlist⟩ := andThen_eq_some.mp h
      clear h
      obtain ⟨hordered, rfl⟩ := instruction_sound hi
      cases mid with
      | nil =>
          obtain ⟨rfl, rfl⟩ := Prod.mk.inj (Option.some.inj hlist)
          refine ⟨⟨List.cons_ne_nil _ _, ?_, ?_⟩, rfl⟩
          · intro i' hi'
            rwa [List.mem_singleton.mp hi']
          · rfl
      | cons t mid =>
          obtain ⟨source, mid', hsource, hdone⟩ := andThen_eq_some.mp hlist
          obtain ⟨rfl, rfl⟩ := Prod.mk.inj (Option.some.inj hdone)
          obtain ⟨⟨hne, hall, hfringe⟩, rfl⟩ := ih hsource
          refine ⟨⟨List.cons_ne_nil _ _, List.forall_mem_cons.mpr ⟨hordered, hall⟩, ?_⟩, rfl⟩
          rw [← hfringe]
          rfl

end Sound

/-! ## The grammar -/

def parse (ts : List Token) : Option (List Instruction) :=
  (instructionList treeActions ts.length ts).run.map Prod.fst

theorem length_le_fringe (source : List Instruction) : source.length ≤ (fringe source).length := by
  induction source with
  | nil => exact Nat.zero_le _
  | cons i source ih =>
      obtain ⟨t, ts, hfringe, -⟩ := startsInstruction_fringe i
      have hsplit : fringe (i :: source) = t :: (ts ++ fringe source) := by
        rw [fringe, List.flatMap_cons, hfringe]
        rfl
      rw [hsplit]
      simp only [List.length_cons, List.length_append]
      omega

@[simp] theorem eval_expr (expr : IndexExpr) : expr.eval treeActions.expr = pure expr := by
  induction expr with
  | leaf c => rfl
  | binary op lhs rhs ihl ihr =>
      rw [OperatorPrecedence.Tree.eval, ihl, ihr]
      rfl
  | paren expr ih =>
      rw [OperatorPrecedence.Tree.eval, ih]
      rfl

theorem eval_mode1 (mode : Mode1) : mode.eval treeActions = pure mode := by
  rcases mode with r | ⟨r, _ | expr⟩ | strg
  · rfl
  · rfl
  · rw [Mode1.eval, eval_expr]
    rfl
  · rfl

theorem eval_mode2 (mode : Mode2) : mode.eval treeActions = pure mode := by
  cases mode with
  | mode1 mode =>
      rw [Mode2.eval, eval_mode1]
      rfl
  | indexConstant c => rfl

theorem eval_mode3 (mode : Mode3) : mode.eval treeActions = pure mode := by
  cases mode with
  | mode2 mode =>
      rw [Mode3.eval, eval_mode2]
      rfl
  | float fval => rfl

theorem evalMore_treeActions (cs : VarConstant × List VarConstant) (rest : List VarConstant) :
    evalMore treeActions cs rest = pure (cs.1, cs.2 ++ rest) := by
  induction rest generalizing cs with
  | nil => rw [List.append_nil]; rfl
  | cons c rest ih =>
      have hstep : evalMore treeActions cs (c :: rest) =
          evalMore treeActions (cs.1, cs.2 ++ [c]) rest := by
        change (c.eval treeActions >>= fun v => _) = _
        rw [eval_treeActions]
        rfl
      rw [hstep, ih, List.append_assoc]
      rfl

theorem eval_instruction (i : Instruction) : i.eval treeActions = pure i := by
  cases i with
  | assembler instr =>
      cases instr <;>
        simp only [Instruction.eval, AssemblerInstruction.eval, eval_mode1, eval_mode2, eval_mode3] <;>
        rfl
  | varDef d =>
      cases d with
      | inits name first rest =>
          have hlist : (VarDef.inits name first rest).eval treeActions =
              (evalMore treeActions (first, []) rest >>= treeActions.inits name) := by
            rw [VarDef.eval, eval_treeActions]
            rfl
          rw [Instruction.eval, hlist, evalMore_treeActions]
          rfl
      | init name c =>
          simp only [Instruction.eval, VarDef.eval, eval_treeActions]
          rfl
      | _ => rfl
  | label name => rfl
  | includeFile name => rfl

theorem evalList_treeActions (source : List Instruction) :
    evalList treeActions source = pure source := by
  induction source with
  | nil => rfl
  | cons i source ih =>
      rw [evalList, ih, eval_instruction]
      rfl

theorem derives_of_parse {ts : List Token} {source : List Instruction}
    (h : parse ts = some source) : Derives ts source := by
  obtain ⟨⟨source', rest⟩, hlist, rfl⟩ := Option.map_eq_some_iff.mp h
  exact (instructionList_sound hlist).1

theorem parse_of_derives {ts : List Token} {source : List Instruction}
    (h : Derives ts source) : parse ts = some source := by
  obtain ⟨hne, hordered, rfl⟩ := h
  have hlist := instructionList_fringe treeActions hne hordered (length_le_fringe source)
  rw [evalList_treeActions] at hlist
  rw [parse, hlist]
  rfl

/-- The parser finds exactly the derivations of the grammar that keep the precedences. -/
theorem parse_eq_some_iff {ts : List Token} {source : List Instruction} :
    parse ts = some source ↔ Derives ts source :=
  ⟨derives_of_parse, parse_of_derives⟩

end SimpleVm.Syntax
