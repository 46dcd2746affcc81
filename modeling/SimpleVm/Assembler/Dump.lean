import SimpleVm.Assembler.DataSlots
import SimpleVm.Assembler.ParserRun
import SimpleVm.Common.HashDump

/-!
# The run of the assembler

`run_parser` drops the result of `yyparse` and prints the tables in any case.
There is no symbol table before the first definition, so that a source without
data does not get to the end.
-/

namespace SimpleVm

namespace DataBuffer

/-- The loop of `dump_data_buffer`, which prints one item in each round. -/
def dumpItems (data : DataBuffer) : ℕ → ℤ → Except Halt (List DataItem)
  | 0, _ => .error .diverges
  | rounds + 1, post => do
      match ← PointerList.iteratePtrList (some data) post with
      | (some item, post) => do
          let items ← dumpItems data rounds post
          .ok (item :: items)
      | (none, _) => .ok []

def dumpDataBuffer (data : DataBuffer) : Except Halt (List DataItem) :=
  dumpItems data (data.len + 1) 0

theorem dumpItems_eq {data : DataBuffer} {items : List DataItem}
    (h : data.Holds (items.map some)) {rounds i : ℕ} (hi : items.length < i + rounds)
    (hle : i ≤ items.length) : dumpItems data rounds i = .ok (items.drop i) := by
  induction rounds generalizing i with
  | zero => omega
  | succ rounds ih =>
      obtain hlt | rfl := Nat.lt_or_eq_of_le hle
      · have hnext := h.iteratePtrList (i := i) (by rwa [List.length_map])
        rw [List.getElem_map] at hnext
        have hrest := ih (i := i + 1) (by omega) hlt
        rw [List.drop_eq_getElem_cons hlt]
        simp only [dumpItems, hnext, ok_bind, hrest]
      · have hend := h.iteratePtrList_end
        rw [List.length_map] at hend
        simp only [dumpItems, hend, ok_bind, List.drop_length]

theorem dumpDataBuffer_eq {data : DataBuffer} {items : List DataItem}
    (h : data.Holds (items.map some)) : data.dumpDataBuffer = .ok items := by
  have hlen : data.len = items.length := h.len_eq.trans (List.length_map _)
  exact dumpItems_eq (i := 0) h (by omega) (Nat.zero_le _)

end DataBuffer

namespace Parser

/-! ## The tables are printed -/

/-- The loop of `dump_hashtable` again, with the symbol behind each line, and a look at `cap`
before it. -/
def dumpSymTable : SymTable → Except Halt (HashTable.Dump Symbol)
  | none => .error .invalidAccess
  | some tab => .ok tab.dumpHashtable

structure Output where
  errors : ℕ
  symbols : HashTable.Dump Symbol
  items : List DataItem

/-- `run_parser` behind `open_file`, on the tokens that `yyparse` gets. -/
def parseAndDump (env : Env) (strg : CString → StringT) (ts : List Token) :
    Except Halt Output := do
  let (_, st) ← yyparse env strg ts initial
  let symbols ← dumpSymTable st.symTable
  let items ← DataBuffer.dumpDataBuffer st.data
  .ok ⟨st.errors, symbols, items⟩

/-- These instructions are in the tokens up to their end, or up to the first error. -/
def Completes (ts : List Token) (source : List Syntax.Instruction) : Prop :=
  Syntax.Derives ts source ∨ (∀ source', ¬ Syntax.Derives ts source') ∧
    ∃ rest, Syntax.Reads ts source rest ∧ (Syntax.instruction Syntax.treeActions rest).run = none

/-! ## A symbol table comes with the first definition -/

section Tables

variable {env : Env} {st st' : State}

theorem symTable_of_no_definitions {source : List Instruction} (hnone : definitions source = [])
    (hrun : instructionList env st source = .ok st') : st'.symTable = st.symTable := by
  induction source generalizing st with
  | nil => exact Except.ok.inj hrun ▸ rfl
  | cons instr source ih =>
      simp only [instructionList, List.foldlM_cons, bind_eq_ok] at hrun
      obtain ⟨mid, hstep, hrest⟩ := hrun
      cases instr with
      | assembler instr => exact (ih hnone hrest).trans (built_assemblerInstruction hstep).symTable_eq
      | varDef d => cases hnone
      | label =>
          obtain rfl := Except.ok.inj hstep
          exact ih hnone hrest
      | includeFile =>
          obtain rfl := Except.ok.inj hstep
          exact ih hnone hrest

theorem symbols_ne_nil {source : List Instruction} (hsome : definitions source ≠ []) :
    (Layout.empty.run (placedDefs env 0 source)).symbols ≠ [] := by
  obtain ⟨more, hmore, hnames⟩ := Layout.symbols_run Layout.empty (placedDefs env 0 source)
  intro hnil
  rw [hnil] at hmore
  obtain rfl : more = [] := hmore.symm
  have hplaced : placedDefs env 0 source = [] := List.map_eq_nil_iff.mp hnames.symm
  have hdefs := map_placedDefs env 0 source
  rw [hplaced] at hdefs
  exact hsome hdefs.symm

end Tables

/-- `yyparse` returns with the tables of some complete instructions. -/
theorem exists_completes {env : Env} {strg : CString → StringT} {ts : List Token} {r : ℤ}
    {st : State} (hrun : yyparse env strg ts initial = .ok (r, st)) :
    ∃ source mid, Completes ts source ∧
      runParser env (source.map (ofInstruction strg)) = .ok mid ∧ mid.Kept st := by
  cases hparse : Syntax.parse ts with
  | some source =>
      have hsource := Syntax.derives_of_parse hparse
      rw [yyparse_accepts hsource] at hrun
      cases hlist : instructionList env initial (source.map (ofInstruction strg)) with
      | error e =>
          rw [hlist] at hrun
          cases hrun
      | ok mid =>
          rw [hlist] at hrun
          cases hrun
          exact ⟨source, st, .inl hsource, hlist, .refl st⟩
  | none =>
      have hnone : ∀ source, ¬ Syntax.Derives ts source := by
        intro source hsource
        rw [Syntax.parse_of_derives hsource] at hparse
        cases hparse
      obtain ⟨-, source, rest, mid, hreads, hrest, hlist, hkept, -⟩ := yyparse_refuses hnone hrun
      exact ⟨source, mid, .inr ⟨hnone, rest, hreads, hrest⟩, hlist, hkept⟩

theorem parseAndDump_eq {env : Env} {strg : CString → StringT} {ts : List Token} {r : ℤ}
    {st : State} (hrun : yyparse env strg ts initial = .ok (r, st)) :
    parseAndDump env strg ts = (do
      let symbols ← dumpSymTable st.symTable
      let items ← DataBuffer.dumpDataBuffer st.data
      .ok ⟨st.errors, symbols, items⟩) := by
  rw [parseAndDump, hrun]
  rfl

/-- The tables that some instructions have left are printed. -/
theorem parseAndDump_tables {env : Env} {strg : CString → StringT} {ts : List Token} {r : ℤ}
    {mid st : State} {defs : List Instruction}
    (hrun : yyparse env strg ts initial = .ok (r, st)) (hlist : runParser env defs = .ok mid)
    (hkept : mid.Kept st) :
    let layout := Layout.empty.run (placedDefs env 0 defs)
    (definitions defs = [] → parseAndDump env strg ts = .error .invalidAccess) ∧
      (definitions defs ≠ [] → ∃ symbols,
        parseAndDump env strg ts =
            .ok ⟨st.errors, symbols, List.replicate layout.size (.unsigned 0)⟩ ∧
          symbols.Lists fun name => layout.symbols.find? fun sym => sym.name = name) := by
  constructor
  · intro hnone
    have htable := hkept.symTable_eq.trans (symTable_of_no_definitions hnone hlist)
    rw [parseAndDump_eq hrun, htable]
    rfl
  · intro hsome
    have hheld := holds_runParser hlist
    obtain ⟨tab, htab⟩ := Option.isSome_iff_exists.mp (hheld.symTable_isSome (symbols_ne_nil hsome))
    have hsymbols := hheld.symTable
    have hdata := hheld.data
    rw [htab, Option.getD_some] at hsymbols
    rw [← List.map_replicate, ← hkept.data_eq] at hdata
    refine ⟨tab.dumpHashtable, ?_, ?_⟩
    · rw [parseAndDump_eq hrun, hkept.symTable_eq, htab, dumpSymTable, ok_bind,
        DataBuffer.dumpDataBuffer_eq hdata, ok_bind]
    · have hlists := hsymbols.wellFormed.dumpHashtable
      rwa [funext hsymbols.lookup_eq] at hlists

/-- The assembler gets through its dumps exactly when there is a data definition in front of the
end or the first error. It then prints every name once, with the symbol of its first definition,
and the slots that the layout of the definitions has. -/
theorem parseAndDump_spec (env : Env) (strg : CString → StringT) (ts : List Token) {r : ℤ}
    {st : State} (hrun : yyparse env strg ts initial = .ok (r, st)) :
    ∃ source, Completes ts source ∧
      let defs := source.map (ofInstruction strg)
      let layout := Layout.empty.run (placedDefs env 0 defs)
      (definitions defs = [] → parseAndDump env strg ts = .error .invalidAccess) ∧
        (definitions defs ≠ [] → ∃ symbols,
          parseAndDump env strg ts =
              .ok ⟨st.errors, symbols, List.replicate layout.size (.unsigned 0)⟩ ∧
            symbols.Lists fun name => layout.symbols.find? fun sym => sym.name = name) := by
  obtain ⟨source, mid, hcompletes, hlist, hkept⟩ := exists_completes hrun
  exact ⟨source, hcompletes, parseAndDump_tables hrun hlist hkept⟩

/-- An environment with its items in a row, and the string of a literal. -/
def plainEnv : Env := ⟨⟨fun _ => 0, fun _ => none, 0⟩, fun i => 16 * (i + 1)⟩

def plainString (s : CString) : StringT := ⟨s.bytes ++ [0], s.strlen, s.strlen + 1⟩

theorem exists_of_map_eq {ε α β : Type} {x : Except ε α} {f : α → β} {b : β}
    (h : x.map f = .ok b) : ∃ a, x = .ok a ∧ f a = b := by
  cases x with
  | error e => cases h
  | ok a => exact ⟨a, rfl, Except.ok.inj h⟩

/-- `data n[2]` and `data b`. -/
def twoData : List Syntax.Instruction :=
  [.varDef (.slots (CString.read [110]) (.uint 2)), .varDef (.slot (CString.read [98]))]

theorem derives_twoData : Syntax.Derives (Syntax.fringe twoData) twoData :=
  ⟨List.cons_ne_nil _ _, List.forall_mem_cons.mpr ⟨trivial, List.forall_mem_singleton.mpr trivial⟩,
    rfl⟩

/-- `n` has sixteen slots, by the address of its constant, and `b` the one behind them. -/
theorem parseAndDump_twoData : ∃ symbols,
    parseAndDump plainEnv plainString (Syntax.fringe twoData) =
        .ok ⟨0, symbols, List.replicate 17 (.unsigned 0)⟩ ∧
      symbols.Lists fun name =>
        [⟨CString.read [110], SYM_DATA, 16, 0⟩, ⟨CString.read [98], SYM_DATA, 1, 16⟩].find?
          fun sym : Symbol => sym.name = name := by
  have hends : (yyparse plainEnv plainString (Syntax.fringe twoData) initial).map
      (fun (_, st) => st.errors) = .ok 0 := by decide +kernel
  obtain ⟨⟨r, st⟩, hrun, herrors⟩ := exists_of_map_eq hends
  obtain ⟨source, hcompletes, -, htables⟩ :=
    parseAndDump_spec plainEnv plainString (Syntax.fringe twoData) hrun
  obtain rfl : source = twoData := by
    rcases hcompletes with hderives | ⟨hnone, -⟩
    · have hparse := Syntax.parse_of_derives hderives
      rw [Syntax.parse_of_derives derives_twoData] at hparse
      exact (Option.some.inj hparse).symm
    · exact absurd derives_twoData (hnone twoData)
  obtain ⟨symbols, hdump, hlists⟩ := htables (List.cons_ne_nil _ _)
  have hsize : (Layout.empty.run (placedDefs plainEnv 0
      (twoData.map (ofInstruction plainString)))).size = 17 := by decide
  have hsymbols : (Layout.empty.run (placedDefs plainEnv 0
      (twoData.map (ofInstruction plainString)))).symbols =
        [⟨CString.read [110], SYM_DATA, 16, 0⟩, ⟨CString.read [98], SYM_DATA, 1, 16⟩] := by decide
  rw [show st.errors = 0 from herrors, hsize] at hdump
  rw [hsymbols] at hlists
  exact ⟨symbols, hdump, hlists⟩

end Parser

end SimpleVm
