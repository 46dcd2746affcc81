import SimpleVm.Assembler.GrammarTrees

/-!
# Refused sources

With any actions the parser takes what it takes with those that build the
trees. It stops at the first token that no source can have there. The
instructions before that one are complete, and their actions have run.
-/

namespace SimpleVm.Syntax

open SimpleVm.Parser (IndexConstant IndexOp)
open Reading

/-- The parser reads these instructions one after the other, up to the rest. -/
inductive Reads : List Token → List Instruction → List Token → Prop where
  | nil (ts : List Token) : Reads ts [] ts
  | cons {ts mid rest : List Token} {i : Instruction} {source : List Instruction}
      (head : (instruction treeActions ts).run = some (i, mid)) (tail : Reads mid source rest) :
      Reads ts (i :: source) rest

theorem Reads.ordered {ts rest : List Token} {source : List Instruction}
    (h : Reads ts source rest) : ∀ i ∈ source, i.Ordered := by
  induction h with
  | nil ts => simp
  | cons head tail ih => exact List.forall_mem_cons.mpr ⟨(instruction_sound head).1, ih⟩

section Follows

variable {m : Type → Type} [Monad m] {act : Actions m} {P : Programs m}

/-- Everything is in the set that runs before an instruction is complete. -/
structure Actions.Within (act : Actions m) (P : Programs m) : Prop where
  indexConstant : ∀ c, P.Has (act.indexConstant c)
  exprConstant : ∀ c, P.Has (act.exprConstant c)
  exprBinary : ∀ op x y, P.Has (act.exprBinary op x y)
  exprParen : ∀ x, P.Has (act.exprParen x)
  mode1Register : ∀ r, P.Has (act.mode1Register r)
  mode1Index : ∀ r index, P.Has (act.mode1Index r index)
  mode1Name : ∀ strg, P.Has (act.mode1Name strg)
  mode2Mode1 : ∀ mode, P.Has (act.mode2Mode1 mode)
  mode2Constant : ∀ c, P.Has (act.mode2Constant c)
  mode3Mode2 : ∀ mode, P.Has (act.mode3Mode2 mode)
  mode3Float : ∀ fval, P.Has (act.mode3Float fval)
  varIndex : ∀ c, P.Has (act.varIndex c)
  varFloat : ∀ fval, P.Has (act.varFloat fval)
  varStrg : ∀ val, P.Has (act.varStrg val)
  createList : ∀ v, P.Has (act.createList v)
  addToList : ∀ vs v, P.Has (act.addToList vs v)

namespace Actions.Within

variable (hact : act.Within P)
include hact

theorem expr : act.expr.Within P :=
  ⟨fun c => P.bind (hact.indexConstant c) hact.exprConstant, hact.exprBinary, hact.exprParen⟩

theorem mode1 (mode : Syntax.Mode1) : P.Has (mode.eval act) := by
  rcases mode with r | ⟨r, _ | expr⟩ | strg
  · exact hact.mode1Register r
  · exact hact.mode1Index r none
  · exact P.bind (expr.eval_within hact.expr) fun e => hact.mode1Index r (some e)
  · exact hact.mode1Name strg

theorem mode2 (mode : Syntax.Mode2) : P.Has (mode.eval act) := by
  cases mode with
  | mode1 mode => exact P.bind (hact.mode1 mode) hact.mode2Mode1
  | indexConstant c => exact P.bind (hact.indexConstant c) hact.mode2Constant

theorem varConstant (c : VarConstant) : P.Has (c.eval act) := by
  cases c with
  | indexConstant c => exact P.bind (hact.indexConstant c) hact.varIndex
  | float fval => exact hact.varFloat fval
  | strg val => exact hact.varStrg val

theorem evalMore (vs : act.VarConsts) (cs : List VarConstant) : P.Has (evalMore act vs cs) := by
  induction cs generalizing vs with
  | nil => exact P.pure vs
  | cons c cs ih => exact P.bind (hact.varConstant c) fun v => P.bind (hact.addToList vs v) ih

end Actions.Within

variable (act) in
/-- The constants of a list. -/
def evalConstants (cs : VarConstant × List VarConstant) : m act.VarConsts := do
  let v ← cs.1.eval act
  let vs ← act.createList v
  evalMore act vs cs.2

theorem evalConstants_within (hact : act.Within P) (cs : VarConstant × List VarConstant) :
    P.Has (evalConstants act cs) :=
  P.bind (hact.varConstant cs.1) fun v => P.bind (hact.createList v) fun vs => hact.evalMore vs cs.2

variable [LawfulMonad m]

theorem bind_evalConstants {β : Type} (cs : VarConstant × List VarConstant) (c : VarConstant)
    (f : act.VarConsts → m β) :
    (evalConstants act cs >>= fun vs => c.eval act >>= fun v => act.addToList vs v >>= f) =
      evalConstants act (cs.1, cs.2 ++ [c]) >>= f := by
  have hmore : ∀ (vs : act.VarConsts) (rest : List VarConstant),
      evalMore act vs (rest ++ [c]) = (do
        let vs ← evalMore act vs rest
        let v ← c.eval act
        act.addToList vs v) := by
    intro vs rest
    induction rest generalizing vs with
    | nil => simp [evalMore]
    | cons c' rest ih => simp [evalMore, ih]
  simp only [evalConstants, hmore, bind_assoc]

theorem readRegister_follows (ts : List Token) :
    Follows P pure (readRegister ts : m (Option (Register × List Token))) (readRegister ts) := by
  rw [readRegister.eq_def, readRegister.eq_def]
  split
  · split
    · exact .done (by rfl) _
    · exact .refuse
  · exact .refuse

theorem readConstant_follows (ts : List Token) :
    Follows P act.indexConstant (readConstant act ts) (readConstant treeActions ts) := by
  rw [readConstant.eq_def, readConstant.eq_def]
  split
  · split
    · exact .done (by rfl) _
    · exact .refuse
  · exact .refuse

theorem readVarConstant_follows (ts : List Token) :
    Follows P (VarConstant.eval act) (readVarConstant act ts) (readVarConstant treeActions ts) := by
  rw [readVarConstant.eq_def, readVarConstant.eq_def]
  split
  · split
    · next c hc =>
        rw [eval_treeActions]
        exact .done (by rfl) _
    · exact .refuse
  · exact .refuse

variable (hact : act.Within P)
include hact

theorem indexExpr_follows (ts : List Token) :
    Follows P (fun expr => expr.eval act.expr) (indexExpr act ts) (indexExpr treeActions ts) := by
  rw [indexExpr, indexExpr]
  split
  · next ls rest hsplit =>
      cases htree : OperatorPrecedence.parseTree level ls with
      | none =>
          obtain ⟨x, hx, hrun⟩ := OperatorPrecedence.parse_refuses hact.expr htree
          rw [hrun, whole_none,
            show OperatorPrecedence.parse level treeActions.expr ls = pure none from htree]
          exact ⟨x, hx, rfl⟩
      | some expr =>
          obtain ⟨hordered, rfl⟩ := OperatorPrecedence.parseTree_eq_some_iff.mp htree
          rw [OperatorPrecedence.parse_fringe hordered, whole_some,
            show OperatorPrecedence.parse level treeActions.expr expr.fringe =
              pure (some expr) from htree]
          exact .done (by rfl) rest
  · next ls rest hno hsplit =>
      exact ⟨_, OperatorPrecedence.steps_within hact.expr ⟨[], none⟩ ls, rfl⟩

theorem index_follows (r : Register) (ts : List Token) :
    Follows P (Mode1.eval act) (index act r ts) (index treeActions r ts) := by
  rw [index.eq_def, index.eq_def]
  split
  · exact .done (by rfl) _
  · refine .andThen (indexExpr_follows hact _) fun expr rest => ?_
    rw [bind_done]
    exact .done (by rfl) _
  · exact .done (by rfl) _

theorem mode1_follows (ts : List Token) :
    Follows P (Mode1.eval act) (mode1 act ts) (mode1 treeActions ts) := by
  rw [mode1.eq_def, mode1.eq_def]
  split
  · exact .done (by rfl) _
  · split
    · exact index_follows hact _ _
    · exact .refuse
  · exact .refuse

theorem mode2_follows (ts : List Token) :
    Follows P (Mode2.eval act) (mode2 act ts) (mode2 treeActions ts) := by
  rw [mode2.eq_def, mode2.eq_def]
  split
  · split
    · next c hc =>
        rw [done_andThen, bind_done]
        exact .done (by rfl) _
    · refine .andThen (mode1_follows hact _) fun mode rest => ?_
      rw [bind_done]
      exact .done (by rfl) _
  · exact .refuse

theorem mode3_follows (ts : List Token) :
    Follows P (Mode3.eval act) (mode3 act ts) (mode3 treeActions ts) := by
  rw [mode3.eq_def, mode3.eq_def]
  split
  · exact .done (by rfl) _
  · refine .andThen (mode2_follows hact _) fun mode rest => ?_
    rw [bind_done]
    exact .done (by rfl) _

theorem moreConstants_follows (cs : VarConstant × List VarConstant) (ts : List Token) :
    Follows P (evalConstants act) (evalConstants act cs >>= fun vs => moreConstants act vs ts)
      (moreConstants treeActions cs ts) := by
  fun_induction moreConstants treeActions cs ts with
  | case1 cs ts =>
      have hread : (evalConstants act cs >>= fun vs => moreConstants act vs (rbrace :: ts)) =
          done (evalConstants act cs) ts := by
        simp only [moreConstants, bind_done, bind_pure]
      rw [hread]
      exact .done (by rfl) ts
  | case2 cs t ts c hc ih =>
      have hread : (evalConstants act cs >>= fun vs => moreConstants act vs (comma :: t :: ts)) =
          evalConstants act (cs.1, cs.2 ++ [c]) >>= fun vs => moreConstants act vs ts := by
        simp only [moreConstants, hc]
        exact bind_evalConstants cs c _
      rw [hread, eval_treeActions]
      exact ih (cs.1, cs.2 ++ [c])
  | case3 cs t ts hc =>
      simp only [moreConstants, hc]
      exact .bind_refuse (evalConstants_within hact cs)
  | case4 ts cs hbrace hcomma =>
      have hread : ∀ vs, moreConstants act vs ts = refuse := by
        intro vs
        rw [moreConstants.eq_def]
        split
        · exact absurd rfl (hbrace _)
        · exact absurd rfl (hcomma _ _)
        · rfl
      simp only [hread]
      exact .bind_refuse (evalConstants_within hact cs)

theorem varDef_follows (ts : List Token) :
    Follows P (Instruction.eval act) (varDef act ts) (varDef treeActions ts) := by
  rw [varDef.eq_def, varDef.eq_def]
  split
  · refine .andThen (readConstant_follows _) fun k rest => ?_
    refine .bind_expect (hact.indexConstant k) _ _ fun rest => ?_
    rw [bind_done]
    exact .done (by rfl) _
  · refine .andThen (readVarConstant_follows _) fun first rest => ?_
    have hcreate : ∀ f : act.VarConsts → List Token → m (Option (act.Instr × List Token)),
        (first.eval act >>= fun v => andThen (done (act.createList v) rest) fun vs ts =>
            andThen (moreConstants act vs ts) f) =
          andThen (evalConstants act (first, []) >>= fun vs => moreConstants act vs rest) f := by
      intro f
      simp only [done_andThen]
      simp only [evalConstants, evalMore, bind_pure, andThen, bind_assoc]
    rw [hcreate]
    change Follows P _ _ (andThen (moreConstants treeActions (first, []) rest) _)
    refine .andThen (moreConstants_follows hact (first, []) rest) fun cs rest => ?_
    rw [bind_done]
    refine .done ?_ _
    simp only [evalConstants, bind_assoc]
    rfl
  · refine .andThen (readVarConstant_follows _) fun c rest => ?_
    rw [bind_done]
    exact .done (by rfl) _
  · split
    · exact .done (by rfl) _
    · exact .refuse
  · exact .refuse

theorem assemblerInstruction_follows (k : Keyword) (ts : List Token) :
    Follows P (Instruction.eval act) (assemblerInstruction act k ts)
      (assemblerInstruction treeActions k ts) := by
  rw [assemblerInstruction.eq_def, assemblerInstruction.eq_def]
  split
  · refine .andThen (mode1_follows hact _) fun dst rest => ?_
    refine .bind_expect (hact.mode1 dst) _ _ fun rest => ?_
    refine .bind_andThen (hact.mode1 dst) (readRegister_follows _) fun lhs rest => ?_
    simp only [pure_bind]
    refine .bind_expect (hact.mode1 dst) _ _ fun rest => ?_
    refine .bind_andThen (hact.mode1 dst) (readRegister_follows _) fun rhs rest => ?_
    simp only [pure_bind, bind_done]
    exact .done (by rfl) _
  split
  · refine .andThen (mode1_follows hact _) fun dst rest => ?_
    rw [bind_done]
    exact .done (by rfl) _
  split
  · refine .andThen (mode2_follows hact _) fun lhs rest => ?_
    refine .bind_expect (hact.mode2 lhs) _ _ fun rest => ?_
    refine .bind_andThen (hact.mode2 lhs) (mode2_follows hact _) fun rhs rest => ?_
    simp only [bind_done]
    exact .done (by rfl) _
  split
  · refine .andThen (mode1_follows hact _) fun dst rest => ?_
    refine .bind_expect (hact.mode1 dst) _ _ fun rest => ?_
    refine .bind_andThen (hact.mode1 dst) (mode3_follows hact _) fun src rest => ?_
    simp only [bind_done]
    exact .done (by rfl) _
  · refine .andThen (mode3_follows hact _) fun src rest => ?_
    rw [bind_done]
    exact .done (by rfl) _
  · refine .andThen (mode1_follows hact _) fun dst rest => ?_
    rw [bind_done]
    exact .done (by rfl) _
  · refine .andThen (mode1_follows hact _) fun dst rest => ?_
    refine .bind_expect (hact.mode1 dst) _ _ fun rest => ?_
    refine .bind_andThen (hact.mode1 dst) (readRegister_follows _) fun src rest => ?_
    simp only [pure_bind]
    refine .bind_expect (hact.mode1 dst) _ _ fun rest => ?_
    refine .bind_andThen (hact.mode1 dst) (readConstant_follows _) fun count rest => ?_
    simp only [bind_done]
    exact .done (by rfl) _
  · split
    · refine .andThen (readConstant_follows _) fun code rest => ?_
      rw [bind_done]
      exact .done (by rfl) _
    · exact .done (by rfl) _
  · split
    · exact .done (by rfl) _
    · exact .refuse
  · split
    · exact .done (by rfl) _
    · exact .refuse

theorem instruction_follows (ts : List Token) :
    Follows P (Instruction.eval act) (instruction act ts) (instruction treeActions ts) := by
  rw [instruction.eq_def, instruction.eq_def]
  split
  · exact varDef_follows hact _
  · exact .done (by rfl) _
  · exact assemblerInstruction_follows hact _ _
  · exact .done (by rfl) _
  · exact .refuse

/-- The instructions in front of an error are complete and their actions have run. Of the one
that it is in, at most what runs before an instruction is complete. -/
theorem instructionList_refuses {n : ℕ} {ts : List Token} (hn : ts.length ≤ n)
    (h : (instructionList treeActions n ts).run = none) :
    ∃ (source : List Instruction) (rest : List Token) (x : m PUnit),
      Reads ts source rest ∧ (instruction treeActions rest).run = none ∧ P.Has x ∧
        instructionList act n ts = evalList act source >>= fun _ => x >>= fun _ => pure none := by
  induction n generalizing ts with
  | zero =>
      obtain rfl := List.eq_nil_of_length_eq_zero (Nat.le_zero.mp hn)
      exact ⟨[], [], pure .unit, .nil [], rfl, P.pure _, by
        simp [instructionList, evalList, Reading.refuse]⟩
  | succ n ih =>
      have hfollows := instruction_follows hact ts
      cases hi : (instruction treeActions ts).run with
      | none =>
          obtain ⟨x, hx, hread⟩ := hfollows.of_none hi
          refine ⟨[], ts, x, .nil ts, hi, hx, ?_⟩
          simp [instructionList, hread, andThen, evalList]
      | some read =>
          obtain ⟨i, mid⟩ := read
          have hread := hfollows.of_some hi
          have htree : instruction treeActions ts = done (pure i) mid := hi
          rw [instructionList, htree, done_andThen, pure_bind] at h
          have hmid : mid.length ≤ n := by
            obtain ⟨t, more, hfringe, -⟩ := startsInstruction_fringe i
            rw [(instruction_sound hi).2, hfringe, List.cons_append, List.length_cons,
              List.length_append] at hn
            omega
          cases mid with
          | nil => cases h
          | cons t mid =>
              have hnone : (instructionList treeActions n (t :: mid)).run = none := by
                by_contra hsome
                obtain ⟨⟨source, rest⟩, hrun⟩ := Option.ne_none_iff_exists'.mp hsome
                simp only [show instructionList treeActions n (t :: mid) =
                  done (pure source) rest from hrun, done_andThen] at h
                cases h
              obtain ⟨source, rest, x, hreads, hrest, hx, hrun⟩ := ih hmid hnone
              refine ⟨i :: source, rest, x, .cons hi hreads, hrest, hx, ?_⟩
              rw [instructionList, hread, done_andThen]
              simp only [hrun, evalList, andThen, bind_assoc, pure_bind, List.isEmpty_cons,
                Bool.false_eq_true, if_false]

end Follows

end SimpleVm.Syntax
