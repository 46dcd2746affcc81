import SimpleVm.Assembler.DataSlots

/-!
# Initialised data

No action stores a constant in a slot. All slots hold the unsigned number
zero, so a definition finds its own constants there only when they are
unsigned zeros, as many as the first definition of the name has recorded.
-/

namespace SimpleVm.Parser

def VarConstant.HeldBy : VarConstant → DataItem → Prop
  | .index (.int val), item => item = .integer val
  | .index (.uint val), item => item = .unsigned val
  | .float val, item => item = .float val
  | .strg val, item => ∃ sval, item = .string sval ∧ sval.str.rawString = val.rawString

def VarDef.constants : VarDef → List VarConstant
  | .slot _ => []
  | .slots _ _ => []
  | .init _ c => [c]
  | .inits _ first rest => first :: rest

/-- The slots of every initialised name are its constants, in order. -/
def Initialised (source : List Instruction) (st : State) : Prop :=
  ∀ d ∈ definitions source, d.constants ≠ [] →
    ∃ sym, st.HasSymbol d.name sym ∧ sym.length = d.constants.length ∧
      ∀ j c, d.constants[j]? = some c →
        ∃ item, DataBuffer.getDataItem st.data (sym.index.toNat + j : ℕ) = .ok (some item) ∧
          c.HeldBy item

/-- The constants are unsigned zeros, as many as the first definition of the
name records, and there are slots at all. -/
structure ZeroFilled (defs : List Placed) (d : VarDef) : Prop where
  zero : ∀ c ∈ d.constants, c = .index (.uint 0)
  recorded : ∃ q, defs.find? (fun q => q.1.name = d.name) = some q ∧
    Layout.lengthOf q = d.constants.length
  slots : ∃ q ∈ defs, 0 < Layout.reserved q

theorem heldBy_zero_iff (c : VarConstant) : c.HeldBy (.unsigned 0) ↔ c = .index (.uint 0) := by
  cases c with
  | index c =>
      cases c with
      | int val => simp [VarConstant.HeldBy]
      | uint val => simp [VarConstant.HeldBy, eq_comm]
  | float val => simp [VarConstant.HeldBy]
  | strg val => simp [VarConstant.HeldBy]

namespace Layout

theorem size_pos {defs : List Placed} {p : Placed} (hp : p ∈ defs) (hres : 0 < reserved p) :
    0 < (empty.run defs).size := by
  obtain ⟨pre, post, rfl⟩ := List.append_of_mem hp
  have hend := end_le_size pre post p
  omega

theorem dataIndex_lt_size {defs : List Placed} (hpos : 0 < (empty.run defs).size) :
    (empty.run defs).dataIndex < (empty.run defs).size := by
  obtain ⟨-, pre, p, post, hsplit, hres, hx⟩ := owned_run defs hpos
  have hend := end_le_size pre post p
  rw [← hsplit] at hend
  omega

theorem recorded_le_size {pre post : List Placed} {p : Placed}
    (hsize : (empty.run (pre ++ p :: post)).size ≤ 2 ^ 30)
    (hpos : 0 < (empty.run (pre ++ p :: post)).size) :
    (empty.run pre).indexOf p.1 + lengthOf p ≤ (empty.run (pre ++ p :: post)).size := by
  have hend := end_le_size pre post p
  have hstart : (empty.run pre).dataIndex < (empty.run (pre ++ p :: post)).size := by
    rcases Nat.eq_zero_or_pos (empty.run pre).size with hzero | hbefore
    · have hle := dataIndex_le_size pre
      omega
    · have hlt := dataIndex_lt_size hbefore
      omega
  rw [lengthOf_eq (by omega)]
  obtain ⟨d, addr⟩ := p
  cases d with
  | slot name =>
      simp only [indexOf, reserved] at hend ⊢
      omega
  | slots name k =>
      simp only [indexOf, reserved] at hend ⊢
      omega
  | init name c =>
      simp only [indexOf]
      omega
  | inits name first rest =>
      simp only [indexOf]
      omega

theorem Holds.getDataItem_iff {l : Layout} {st : State} (h : l.Holds st) {i : ℕ}
    {item : DataItem} :
    DataBuffer.getDataItem st.data i = .ok (some item) ↔ i < l.size ∧ item = .unsigned 0 := by
  have hget (hlt : i < l.size) : DataBuffer.getDataItem st.data i = .ok (some (.unsigned 0)) := by
    apply DataBuffer.getDataItem_eq h.data
    rw [List.getElem?_replicate, if_pos hlt]
  constructor
  · intro hitem
    have hlt : i < l.size := by
      have hex := (h.slot_exists (Int.natCast_nonneg i)).mp ⟨item, hitem⟩
      exact_mod_cast hex
    rw [hget hlt] at hitem
    exact ⟨hlt, (Option.some.inj (Except.ok.inj hitem)).symm⟩
  · rintro ⟨hlt, rfl⟩
    exact hget hlt

end Layout

section Constants

variable {env : Env} {source : List Instruction} {st : State}

theorem exists_symbol (hrun : runParser env source = .ok st) {d : VarDef}
    (hd : d ∈ definitions source) :
    ∃ pre q post, placedDefs env 0 source = pre ++ q :: post ∧
      (placedDefs env 0 source).find? (fun q => q.1.name = d.name) = some q ∧
        st.HasSymbol d.name ((Layout.empty.run pre).symbolOf q) := by
  obtain ⟨p, hp, rfl⟩ : ∃ p ∈ placedDefs env 0 source, p.1 = d := by
    rw [← map_placedDefs env 0 source] at hd
    exact List.mem_map.mp hd
  cases hfind : (placedDefs env 0 source).find? (fun q => q.1.name = p.1.name) with
  | none => exact absurd (List.find?_eq_none.mp hfind p hp) (by simp)
  | some q =>
      obtain ⟨hname, pre, post, hsplit, hfirst⟩ := List.find?_eq_some_iff_append.mp hfind
      rw [decide_eq_true_eq] at hname
      refine ⟨pre, q, post, hsplit, rfl, ?_⟩
      have hheld := holds_runParser hrun
      rw [hsplit] at hheld
      rw [← hname]
      apply hheld.hasSymbol
      apply Layout.find_symbol
      intro q' hq'
      rw [hname]
      simpa using hfirst q' hq'

/-- The slots of an initialised definition hold its constants exactly when the
constants are unsigned zeros, one for each slot recorded for the name. -/
theorem initialised_iff (env : Env) (source : List Instruction) (st : State)
    (hrun : runParser env source = .ok st) :
    Initialised source st ↔ ∀ d ∈ definitions source, d.constants ≠ [] →
      ZeroFilled (placedDefs env 0 source) d := by
  have hheld := holds_runParser hrun
  have hsize := hheld.size_le
  constructor
  · intro hinit d hd hne
    obtain ⟨sym, hsym, hlength, hslots⟩ := hinit d hd hne
    obtain ⟨pre, q, post, hsplit, hfind, hsym'⟩ := exists_symbol hrun hd
    obtain rfl := hsym.unique hsym'
    refine ⟨?_, ⟨q, hfind, hlength⟩, ?_⟩
    · intro c hc
      obtain ⟨j, hj⟩ := List.getElem?_of_mem hc
      obtain ⟨item, hitem, hholds⟩ := hslots j c hj
      obtain ⟨-, rfl⟩ := hheld.getDataItem_iff.mp hitem
      exact (heldBy_zero_iff c).mp hholds
    · obtain ⟨c, cs, hcs⟩ := List.exists_cons_of_ne_nil hne
      obtain ⟨item, hitem, -⟩ := hslots 0 c (by rw [hcs]; rfl)
      have hlt := (hheld.getDataItem_iff.mp hitem).1
      obtain ⟨⟨before, p, after, howner, hres, -⟩, -⟩ :=
        Layout.owned_run (placedDefs env 0 source) (Nat.zero_lt_of_lt hlt)
      exact ⟨p, howner ▸ List.mem_append_right _ List.mem_cons_self, hres⟩
  · intro hzero d hd hne
    obtain ⟨hconst, ⟨q', hfind', hlength⟩, p, hp, hres⟩ := hzero d hd hne
    obtain ⟨pre, q, post, hsplit, hfind, hsym⟩ := exists_symbol hrun hd
    obtain rfl := Option.some.inj (hfind'.symm.trans hfind)
    refine ⟨_, hsym, hlength, ?_⟩
    intro j c hj
    have hpos := Layout.size_pos hp hres
    have hlt : j < d.constants.length := (List.getElem?_eq_some_iff.mp hj).1
    refine ⟨.unsigned 0, hheld.getDataItem_iff.mpr ⟨?_, rfl⟩, ?_⟩
    · rw [hsplit] at hsize hpos ⊢
      have hend := Layout.recorded_le_size hsize hpos
      rw [Layout.index_of_split hsize]
      omega
    · exact (heldBy_zero_iff c).mpr (hconst c (List.mem_of_getElem? hj))

/-- `DATA a` and `DATA b = 0x0`. -/
theorem initialised_unsigned_zero :
    ∃ st, runParser ⟨⟨fun _ => 0, fun _ => none, 0⟩, fun _ => 0x5555557592d0⟩
        [.varDef (.slot ⟨[97], by decide⟩),
          .varDef (.init ⟨[98], by decide⟩ (.index (.uint 0)))] = .ok st ∧
      Initialised [.varDef (.slot ⟨[97], by decide⟩),
        .varDef (.init ⟨[98], by decide⟩ (.index (.uint 0)))] st := by
  obtain ⟨st, hrun⟩ := exists_of_isOk (x := runParser
    ⟨⟨fun _ => 0, fun _ => none, 0⟩, fun _ => 0x5555557592d0⟩
    [.varDef (.slot ⟨[97], by decide⟩), .varDef (.init ⟨[98], by decide⟩ (.index (.uint 0)))])
      (by decide)
  refine ⟨st, hrun, ?_⟩
  apply (initialised_iff _ _ _ hrun).mpr
  intro d hd hne
  simp only [definitions, List.mem_cons, List.not_mem_nil, or_false] at hd
  rcases hd with rfl | rfl
  · exact absurd rfl hne
  · refine ⟨by simp [VarDef.constants], ⟨_, rfl, rfl⟩, _, List.mem_cons_self, Nat.one_pos⟩

/-- `DATA a` and `DATA b = 5`: the slot of `b` is the unsigned zero of `a`. -/
theorem not_initialised_five :
    ∃ st, runParser ⟨⟨fun _ => 0, fun _ => none, 0⟩, fun _ => 0x5555557592d0⟩
        [.varDef (.slot ⟨[97], by decide⟩),
          .varDef (.init ⟨[98], by decide⟩ (.index (.int 5)))] = .ok st ∧
      ¬ Initialised [.varDef (.slot ⟨[97], by decide⟩),
        .varDef (.init ⟨[98], by decide⟩ (.index (.int 5)))] st := by
  obtain ⟨st, hrun⟩ := exists_of_isOk (x := runParser
    ⟨⟨fun _ => 0, fun _ => none, 0⟩, fun _ => 0x5555557592d0⟩
    [.varDef (.slot ⟨[97], by decide⟩), .varDef (.init ⟨[98], by decide⟩ (.index (.int 5)))])
      (by decide)
  refine ⟨st, hrun, ?_⟩
  intro hinit
  obtain ⟨sym, -, -, hslots⟩ := hinit (.init ⟨[98], by decide⟩ (.index (.int 5)))
    (List.mem_cons_of_mem _ List.mem_cons_self) (by simp [VarDef.constants])
  obtain ⟨item, hitem, hholds⟩ := hslots 0 (.index (.int 5)) rfl
  obtain ⟨-, rfl⟩ := (holds_runParser hrun).getDataItem_iff.mp hitem
  cases hholds

end Constants

end SimpleVm.Parser
