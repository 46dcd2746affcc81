import SimpleVm.Assembler.IndexDivision
import SimpleVm.Assembler.ParserRun

/-!
# The tokens of an index expression

What holds of the trees of index expressions, for the tokens between the
brackets: the precedences make one tree of them at most, and the actions do for
the tokens what they do for the tree.
-/

namespace SimpleVm.Parser

/-- `'[' index_expr ']'` behind the bracket: the value and the tokens that are left, unless there
is a syntax error. -/
def readIndex (env : Env) (strg : CString → StringT) (ts : List Token) (st : State) :
    Except Halt (Option (Int32 × List Token) × State) :=
  (Syntax.indexExpr (actions env strg) ts).run st

/-- The tokens are those of an expression that keeps the precedences. -/
structure Spells (ts : List Token) (expr : Syntax.IndexExpr) : Prop where
  ordered : expr.Ordered Syntax.level
  fringe_eq : Syntax.indexFringe expr = ts

/-- Whatever the allocator, the tokens have the mathematical value of their expression, if there
is one. -/
def IndexTokensRight (k : ℕ) (ts : List Token) : Prop :=
  ∀ expr z, Spells ts expr → (ofIndexExpr expr).mathValue = some z →
    ∀ env, Aligned k env → ∀ strg st rest, ∃ st',
      readIndex env strg (ts ++ Syntax.rbracket :: rest) st =
        .ok (some (Int32.ofInt z, rest), st')

/-- Whatever the allocator, the tokens are read to their end, and with an error exactly when some
divisor is zero. -/
def DivisionTokensSafe (k : ℕ) (ts : List Token) : Prop :=
  ∀ expr, Spells ts expr → ∀ env, Aligned k env → ∀ strg st rest, ∃ v st',
    readIndex env strg (ts ++ Syntax.rbracket :: rest) st = .ok (some (v, rest), st') ∧
      (st.errors < st'.errors ↔ (ofIndexExpr expr).dividesByZero = true)

section Reads

variable {k : ℕ} {env : Env} {strg : CString → StringT} {st st' : State} {ts rest : List Token}
  {expr expr' : Syntax.IndexExpr} {v : Int32}

theorem Spells.read_tree (h : Spells ts expr) :
    (Syntax.indexExpr Syntax.treeActions (ts ++ [Syntax.rbracket])).run = some (expr, []) := by
  have htree : expr.eval Syntax.treeActions.expr = expr := OperatorPrecedence.eval_treeActions expr
  rw [← h.fringe_eq, Syntax.indexExpr_fringe Syntax.treeActions h.ordered []]
  exact congrArg (fun expr => some (expr, [])) htree

theorem Spells.unique (h : Spells ts expr) (h' : Spells ts expr') : expr = expr' :=
  (Prod.mk.inj (Option.some.inj (h.read_tree.symm.trans h'.read_tree))).1

/-- The tokens of a tree have the effect and the value of the tree. -/
theorem Spells.readIndex_eq (h : Spells ts expr) :
    readIndex env strg (ts ++ Syntax.rbracket :: rest) st =
      (fun (v, st') => (some (v, rest), st')) <$> indexExpr env st (ofIndexExpr expr) := by
  obtain ⟨hordered, rfl⟩ := h
  rw [readIndex, Syntax.indexExpr_fringe _ hordered, ← run_indexExpr env strg]
  rfl

theorem Spells.readIndex_iff (h : Spells ts expr) :
    readIndex env strg (ts ++ Syntax.rbracket :: rest) st = .ok (some (v, rest), st') ↔
      indexExpr env st (ofIndexExpr expr) = .ok (v, st') := by
  rw [h.readIndex_eq]
  cases indexExpr env st (ofIndexExpr expr) with
  | error e => exact iff_of_false (fun h => by cases h) (fun h => by cases h)
  | ok answer =>
      obtain ⟨w, st₁⟩ := answer
      simp

end Reads

/-- `1+2*3` -/
example : Spells [.intLiteral 1, .punct 43, .intLiteral 2, .punct 42, .intLiteral 3]
    (.binary .add (.leaf (.int 1)) (.binary .mul (.leaf (.int 2)) (.leaf (.int 3)))) where
  ordered := ⟨trivial, ⟨trivial, trivial, trivial, trivial⟩, trivial, by decide⟩
  fringe_eq := rfl

variable {ts : List Token} {expr : Syntax.IndexExpr}

/-- Where the tokens have a tree, their value is right wherever the one of the tree is. -/
theorem Spells.indexTokensRight_iff (h : Spells ts expr) (k : ℕ) :
    IndexTokensRight k ts ↔ IndexValueRight k (ofIndexExpr expr) := by
  constructor
  · intro htokens z hz env henv st
    obtain ⟨st', hread⟩ := htokens expr z h hz env henv (fun _ => ⟨[], 0, 0⟩) st []
    exact ⟨st', h.readIndex_iff.mp hread⟩
  · intro htree expr' z h' hz env henv strg st rest
    obtain rfl := h.unique h'
    obtain ⟨st', hrun⟩ := htree z hz env henv st
    exact ⟨st', h.readIndex_iff.mpr hrun⟩

theorem Spells.divisionTokensSafe_iff (h : Spells ts expr) (k : ℕ) :
    DivisionTokensSafe k ts ↔ DivisionSafe k (ofIndexExpr expr) := by
  constructor
  · intro htokens env henv st
    obtain ⟨v, st', hread, herrors⟩ := htokens expr h env henv (fun _ => ⟨[], 0, 0⟩) st []
    exact ⟨v, st', h.readIndex_iff.mp hread, herrors⟩
  · intro htree expr' h' env henv strg st rest
    obtain rfl := h.unique h'
    obtain ⟨v, st', hrun, herrors⟩ := htree env henv st
    exact ⟨v, st', h.readIndex_iff.mpr hrun, herrors⟩

end SimpleVm.Parser
