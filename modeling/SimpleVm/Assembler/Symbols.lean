import Mathlib.Data.Finset.Card
import SimpleVm.Common.HashRefinement

/-!
# The symbol table of the assembler

`add_symbol` drops the result of `insert_hashtable`, so the first symbol of a
name stays. The table is created by the first call and only ever grows.
-/

namespace SimpleVm

structure Symbol where
  name : CString
  type : ℤ
  length : ℤ
  index : UInt32
  deriving DecidableEq

/-- `symbol_type_t` -/
def SYM_CODE : ℤ := 0

def SYM_DATA : ℤ := 1

/-- The global `sym_table`, `none` while it is `NULL`. -/
abbrev SymTable := Option (HashTable Symbol)

def addSymbol (symTable : SymTable) (name : CString) (type length : ℤ) (index : UInt32) :
    Except Halt SymTable := do
  let tab := symTable.getD HashTable.createHashtable
  let sym : Symbol := ⟨name, type, length, index⟩
  let (_, tab) ← tab.insertHashtable name sym
  .ok (some tab)

def getSymbol (symTable : SymTable) (name : CString) : Except Halt (Option Symbol × SymTable) :=
  match symTable with
  | none => .error .invalidAccess
  | some tab => do
      let (sym, tab) ← tab.findHashtable name
      .ok (sym, some tab)

/-- The calls of `add_symbol` in order, each given by its arguments. -/
def addSymbols (symTable : SymTable) (calls : List Symbol) : Except Halt SymTable :=
  calls.foldlM (fun tab c => addSymbol tab c.name c.type c.length c.index) symTable

namespace Symbols

open HashTable

/-- What the table holds after the calls: the first symbol of every name. -/
structure Holds (calls : List Symbol) (tab : HashTable Symbol) : Prop where
  wellFormed : tab.WellFormed
  count_eq : tab.count = (calls.map Symbol.name).toFinset.card
  lookup_eq : ∀ name, tab.lookup name = calls.find? (fun c => c.name = name)

theorem holds_create : Holds [] createHashtable :=
  ⟨wellFormed_create, rfl, fun name => congrFun lookup_create name⟩

theorem mem_names_iff {calls : List Symbol} {name : CString} :
    name ∈ (calls.map Symbol.name).toFinset ↔ (calls.find? fun c => c.name = name).isSome := by
  simp [List.find?_isSome]

theorem card_names_concat (calls : List Symbol) (c : Symbol) :
    ((calls ++ [c]).map Symbol.name).toFinset.card =
      (calls.map Symbol.name).toFinset.card +
        if (calls.find? fun c' => c'.name = c.name).isSome then 0 else 1 := by
  have hset : ((calls ++ [c]).map Symbol.name).toFinset =
      insert c.name (calls.map Symbol.name).toFinset := by
    ext name
    simp
  rw [hset]
  split
  · rw [Finset.insert_eq_of_mem (mem_names_iff.mpr ‹_›), Nat.add_zero]
  · exact Finset.card_insert_of_notMem fun hmem => absurd (mem_names_iff.mp hmem) ‹_›

theorem Holds.add {calls : List Symbol} {tab : HashTable Symbol} (h : Holds calls tab)
    (c : Symbol) :
    (addSymbol (some tab) c.name c.type c.length c.index = .error .fatal ∧
        613566757 ≤ tab.count) ∨
      ∃ tab', addSymbol (some tab) c.name c.type c.length c.index = .ok (some tab') ∧
        Holds (calls ++ [c]) tab' := by
  have hcard := card_names_concat calls c
  have hfind : ∀ name, (calls ++ [c]).find? (fun c' => c'.name = name) =
      (calls.find? fun c' => c'.name = name).or (if c.name = name then some c else none) := by
    intro name
    rw [List.find?_append]
    by_cases hn : c.name = name <;> simp [hn]
  rcases h.wellFormed.insert_spec c.name c with ⟨hfatal, hcount⟩ | ⟨tab', hwf, hcases⟩
  · left
    exact ⟨by simp [addSymbol, hfatal], hcount⟩
  · right
    rw [h.lookup_eq c.name] at hcases
    cases hold : calls.find? fun c' => c'.name = c.name with
    | none =>
        rw [hold] at hcases hcard
        obtain ⟨hrun, hcount, hlook⟩ := hcases
        refine ⟨tab', by simp [addSymbol, hrun], hwf, ?_, ?_⟩
        · rw [hcount, h.count_eq, hcard]
          rfl
        · intro name
          rw [hlook, hfind]
          by_cases hn : name = c.name
          · subst hn
            simp [hold]
          · simp [Function.update_of_ne hn, h.lookup_eq, Ne.symm hn]
    | some first =>
        rw [hold] at hcases hcard
        obtain ⟨hrun, hcount, hlook⟩ := hcases
        refine ⟨tab', by simp [addSymbol, hrun], hwf, ?_, ?_⟩
        · rw [hcount, h.count_eq, hcard]
          rfl
        · intro name
          rw [hlook, hfind, h.lookup_eq]
          by_cases hn : c.name = name
          · subst hn
            simp [hold]
          · simp [hn]

theorem Holds.addSymbols {calls : List Symbol} {tab : HashTable Symbol} (h : Holds calls tab)
    (more : List Symbol) :
    (SimpleVm.addSymbols (some tab) more = .error .fatal ∧
        613566757 ≤ ((calls ++ more).map Symbol.name).toFinset.card) ∨
      ∃ tab', SimpleVm.addSymbols (some tab) more = .ok (some tab') ∧
        Holds (calls ++ more) tab' := by
  induction more generalizing calls tab with
  | nil => exact .inr ⟨tab, rfl, by simpa using h⟩
  | cons c more ih =>
      rw [SimpleVm.addSymbols, List.foldlM_cons]
      rcases h.add c with ⟨hfatal, hcount⟩ | ⟨tab', hrun, h'⟩
      · left
        rw [hfatal]
        refine ⟨rfl, hcount.trans ?_⟩
        rw [h.count_eq]
        apply Finset.card_le_card
        intro name
        simp +contextual
      · have happ : calls ++ c :: more = (calls ++ [c]) ++ more := by simp
        rw [hrun, happ]
        exact ih h'

theorem Holds.of_addSymbol {calls : List Symbol} {symTable symTable' : SymTable}
    {name : CString} {type length : ℤ} {index : UInt32}
    (h : Holds calls (symTable.getD createHashtable))
    (hrun : addSymbol symTable name type length index = .ok symTable') :
    symTable'.isSome ∧
      Holds (calls ++ [⟨name, type, length, index⟩]) (symTable'.getD createHashtable) := by
  have hsame : addSymbol symTable name type length index =
      addSymbol (some (symTable.getD createHashtable)) name type length index := by
    cases symTable <;> rfl
  rw [hsame] at hrun
  rcases h.add ⟨name, type, length, index⟩ with ⟨hfatal, -⟩ | ⟨tab', hok, h'⟩
  · rw [hfatal] at hrun
    cases hrun
  · rw [hok] at hrun
    obtain rfl := Except.ok.inj hrun
    exact ⟨rfl, h'⟩

theorem Holds.getSymbol {calls : List Symbol} {tab : HashTable Symbol} (h : Holds calls tab)
    (name : CString) : ∃ symTable', SimpleVm.getSymbol (some tab) name =
      .ok (calls.find? (fun c => c.name = name), symTable') := by
  obtain ⟨s, hfind⟩ := h.wellFormed.find_spec name
  refine ⟨some (tab.settle s), ?_⟩
  rw [SimpleVm.getSymbol, hfind, h.lookup_eq]
  rfl

/-- After any calls of `add_symbol`, `get_symbol` returns the first symbol added
under a name and `NULL` for every other name, and the table counts the names.
The only way not to get there is the last doubling, past 613566756 names. -/
theorem addSymbols_spec (first : Symbol) (rest : List Symbol) :
    (SimpleVm.addSymbols none (first :: rest) = .error .fatal ∧
        613566757 ≤ ((first :: rest).map Symbol.name).toFinset.card) ∨
      ∃ tab, SimpleVm.addSymbols none (first :: rest) = .ok (some tab) ∧
        tab.count = ((first :: rest).map Symbol.name).toFinset.card ∧
        ∀ name, ∃ tab', getSymbol (some tab) name =
          .ok ((first :: rest).find? (fun c => c.name = name), tab') := by
  have hcreate : SimpleVm.addSymbols none (first :: rest) =
      SimpleVm.addSymbols (some createHashtable) (first :: rest) := rfl
  rw [hcreate]
  rcases holds_create.addSymbols (first :: rest) with hfatal | ⟨tab, hrun, h⟩
  · exact .inl hfatal
  · exact .inr ⟨tab, hrun, h.count_eq, h.getSymbol⟩

end Symbols

end SimpleVm
