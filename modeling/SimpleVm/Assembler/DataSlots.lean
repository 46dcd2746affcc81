import Mathlib.Data.List.Induction
import Mathlib.Data.List.Pairwise
import SimpleVm.Assembler.DataLayout

/-!
# The slots of the data names

Every name should own as many slots as it declares. The form with a length
takes the address of the literal's item for the length, the two initialised
forms append no slots at all, and what they record is the last value that an
array left in `data_index`.
-/

namespace SimpleVm

/-- The slot is in `[index, index + length)`. -/
def Symbol.Covers (sym : Symbol) (i : ℤ) : Prop :=
  (sym.index.toNat : ℤ) ≤ i ∧ i < sym.index.toNat + sym.length

/-- No slot belongs to both. -/
def Symbol.Apart (sym sym' : Symbol) : Prop := ∀ i, sym.Covers i → ¬ sym'.Covers i

instance : Std.Symm Symbol.Apart := ⟨fun _ _ h i hi hi' => h i hi' hi⟩

namespace Parser

def definitions : List Instruction → List VarDef
  | [] => []
  | .varDef d :: rest => d :: definitions rest
  | _ :: rest => definitions rest

def State.HasSymbol (st : State) (name : CString) (sym : Symbol) : Prop :=
  ∃ symTable, getSymbol st.symTable name = .ok (some sym, symTable)

/-- Every name has the slots that it declares, and shares none with another name. -/
structure LaidOut (source : List Instruction) (st : State) : Prop where
  declared : ∀ d ∈ definitions source, ∃ sym, st.HasSymbol d.name sym ∧
    sym.length = d.slotCount ∧
      ∀ i, sym.Covers i → ∃ item, DataBuffer.getDataItem st.data i = .ok (some item)
  apart : ∀ d ∈ definitions source, ∀ d' ∈ definitions source, d.name ≠ d'.name →
    ∀ sym sym', st.HasSymbol d.name sym → st.HasSymbol d'.name sym' → sym.Apart sym'

/-- The definition gets the slots it declares. -/
def Exact : Placed → Prop
  | (.slot _, _) => True
  | (.slots _ k, addr) => k.value = addr
  | (.init _ _, _) => False
  | (.inits _ _ _, _) => False

theorem map_placedDefs (env : Env) (items : ℕ) (source : List Instruction) :
    (placedDefs env items source).map Prod.fst = definitions source := by
  induction source generalizing items with
  | nil => rfl
  | cons instr source ih =>
      cases instr with
      | varDef d => rw [placedDefs, List.map_cons, ih, definitions]
      | assembler instr => exact ih _
      | label => exact ih _
      | includeFile => exact ih _

namespace Layout

variable {l : Layout} {st : State}

theorem run_append (l : Layout) (pre post : List Placed) :
    l.run (pre ++ post) = (l.run pre).run post := List.foldl_append

theorem run_concat (l : Layout) (pre : List Placed) (p : Placed) :
    l.run (pre ++ [p]) = (l.run pre).step p := by
  rw [run_append]
  rfl

theorem size_le_run (l : Layout) (defs : List Placed) : l.size ≤ (l.run defs).size := by
  induction defs generalizing l with
  | nil => exact le_rfl
  | cons p defs ih => exact (Nat.le_add_right _ _).trans (ih (l.step p))

theorem dataIndex_le_size (defs : List Placed) :
    (empty.run defs).dataIndex ≤ (empty.run defs).size := by
  induction defs using List.reverseRecOn with
  | nil => exact le_rfl
  | append_singleton defs p ih =>
      rw [run_concat]
      obtain ⟨d, addr⟩ := p
      cases d with
      | slot name => exact ih.trans (Nat.le_add_right _ _)
      | slots name k => exact Nat.le_add_right _ _
      | init name c => exact ih
      | inits name first rest => exact ih

theorem symbols_run (l : Layout) (defs : List Placed) :
    ∃ more, (l.run defs).symbols = l.symbols ++ more ∧
      more.map Symbol.name = defs.map fun p => p.1.name := by
  induction defs generalizing l with
  | nil => exact ⟨[], (List.append_nil _).symm, rfl⟩
  | cons p defs ih =>
      obtain ⟨more, hmore, hnames⟩ := ih (l.step p)
      refine ⟨l.symbolOf p :: more, ?_, ?_⟩
      · change ((l.step p).run defs).symbols = _
        rw [hmore, step, List.append_assoc, List.singleton_append]
      · rw [List.map_cons, List.map_cons, hnames, symbolOf]

theorem find_symbol {pre post : List Placed} {p : Placed}
    (hfirst : ∀ q ∈ pre, q.1.name ≠ p.1.name) :
    (empty.run (pre ++ p :: post)).symbols.find? (fun sym => sym.name = p.1.name) =
      some ((empty.run pre).symbolOf p) := by
  obtain ⟨before, hbefore, hnames⟩ := symbols_run empty pre
  obtain ⟨more, hmore, -⟩ := symbols_run ((empty.run pre).step p) post
  have hrun : (empty.run (pre ++ p :: post)).symbols =
      before ++ (empty.run pre).symbolOf p :: more := by
    rw [run_append]
    change (((empty.run pre).step p).run post).symbols = _
    rw [hmore, step, hbefore, List.append_assoc, List.singleton_append]
    rfl
  have hnone : before.find? (fun sym => sym.name = p.1.name) = none := by
    rw [List.find?_eq_none]
    intro sym hsym
    have hmem : sym.name ∈ pre.map fun q => q.1.name := hnames ▸ List.mem_map_of_mem hsym
    obtain ⟨q, hq, hname⟩ := List.mem_map.mp hmem
    simpa [← hname] using hfirst q hq
  rw [hrun, List.find?_append, hnone, Option.none_or, List.find?_cons_of_pos]
  simp [symbolOf]

theorem symbolOf_index {p : Placed} (h : l.indexOf p.1 < 2 ^ 32) :
    (l.symbolOf p).index.toNat = l.indexOf p.1 := by
  have hint : ((l.indexOf p.1 : ℤ) % 2 ^ 32).toNat = l.indexOf p.1 := by omega
  rw [symbolOf, UInt32.ofInt, hint]
  exact UInt32.toNat_ofNat_of_lt' h

theorem indexOf_le (defs : List Placed) (d : VarDef) :
    (empty.run defs).indexOf d ≤ (empty.run defs).size := by
  cases d with
  | slot name => exact le_rfl
  | slots name k => exact le_rfl
  | init name c => exact dataIndex_le_size defs
  | inits name first rest => exact dataIndex_le_size defs

theorem index_of_split {pre post : List Placed} {p : Placed}
    (hsize : (empty.run (pre ++ p :: post)).size ≤ 2 ^ 30) :
    ((empty.run pre).symbolOf p).index.toNat = (empty.run pre).indexOf p.1 := by
  have hpre : (empty.run pre).size ≤ (empty.run (pre ++ p :: post)).size := by
    rw [run_append]
    exact size_le_run _ _
  have hindex := indexOf_le pre p.1
  exact symbolOf_index (by omega)

theorem end_le_size (pre post : List Placed) (p : Placed) :
    (empty.run pre).size + reserved p ≤ (empty.run (pre ++ p :: post)).size := by
  rw [run_append]
  exact size_le_run ((empty.run pre).step p) post

theorem lengthOf_eq {p : Placed} (hsize : reserved p ≤ 2 ^ 30) :
    lengthOf p = match p with
      | (.slot _, _) => 1
      | (.slots _ _, addr) => (addr : ℤ)
      | (.init _ _, _) => 1
      | (.inits _ _ _, _) => 0 := by
  obtain ⟨d, addr⟩ := p
  cases d with
  | slots name k =>
      rw [reserved] at hsize
      exact toInt_of_lt (by omega) (by omega)
  | slot name => rfl
  | init name c => rfl
  | inits name first rest => rfl

/-! ## Exact definitions are packed -/

/-- The symbols share no slot and stay below the size. -/
structure Packed (l : Layout) : Prop where
  apart : l.symbols.Pairwise Symbol.Apart
  inside : ∀ sym ∈ l.symbols, ∀ i, sym.Covers i → i < l.size

theorem Packed.step (h : Packed l) {p : Placed} (hexact : Exact p)
    (hsize : (l.step p).size ≤ 2 ^ 30) : Packed (l.step p) := by
  have hsum : l.size + reserved p ≤ 2 ^ 30 := hsize
  have hindexOf : l.indexOf p.1 = l.size := by
    obtain ⟨d, addr⟩ := p
    cases d with
    | slot name => rfl
    | slots name k => rfl
    | init name c => exact hexact.elim
    | inits name first rest => exact hexact.elim
  have hlength : lengthOf p ≤ reserved p := by
    rw [lengthOf_eq (by omega)]
    obtain ⟨d, addr⟩ := p
    cases d with
    | slot name => exact le_rfl
    | slots name k =>
        simp only [reserved]
        omega
    | init name c => exact hexact.elim
    | inits name first rest => exact hexact.elim
  have hindex : (l.symbolOf p).index.toNat = l.size := by
    rw [symbolOf_index (by omega), hindexOf]
  have hcovers : ∀ i, (l.symbolOf p).Covers i → (l.size : ℤ) ≤ i ∧ i < (l.step p).size := by
    rintro i ⟨hfrom, hto⟩
    rw [hindex] at hfrom hto
    refine ⟨hfrom, hto.trans_le ?_⟩
    have hcast : ((l.step p).size : ℤ) = l.size + reserved p := Nat.cast_add _ _
    rw [hcast]
    exact Int.add_le_add_left hlength _
  constructor
  · rw [Layout.step, List.pairwise_append]
    refine ⟨h.apart, List.pairwise_singleton _ _, ?_⟩
    intro sym hsym sym' hsym' i hi hi'
    obtain rfl := List.mem_singleton.mp hsym'
    exact absurd (h.inside sym hsym i hi) (not_lt.mpr (hcovers i hi').1)
  · intro sym hsym i hi
    rcases List.mem_append.mp hsym with hold | hnew
    · exact (h.inside sym hold i hi).trans_le (by exact_mod_cast Nat.le_add_right _ _)
    · obtain rfl := List.mem_singleton.mp hnew
      exact (hcovers i hi).2

theorem packed_run {defs : List Placed} (hexact : ∀ p ∈ defs, Exact p)
    (hsize : (empty.run defs).size ≤ 2 ^ 30) : Packed (empty.run defs) := by
  induction defs using List.reverseRecOn with
  | nil => exact ⟨List.Pairwise.nil, fun sym hsym => absurd hsym List.not_mem_nil⟩
  | append_singleton defs p ih =>
      rw [run_concat] at hsize ⊢
      rw [List.forall_mem_append, List.forall_mem_singleton] at hexact
      exact (ih hexact.1 ((Nat.le_add_right _ _).trans hsize)).step hexact.2 hsize

/-! ## The owner of a recorded index -/

/-- Some definition in the list has reserved slots from `x` on. -/
def Owned (defs : List Placed) (x : ℕ) : Prop :=
  ∃ pre p post, defs = pre ++ p :: post ∧ 0 < reserved p ∧ (empty.run pre).size = x

theorem Owned.concat {defs : List Placed} {x : ℕ} (h : Owned defs x) (p : Placed) :
    Owned (defs ++ [p]) x := by
  obtain ⟨pre, q, post, rfl, hres, hx⟩ := h
  exact ⟨pre, q, post ++ [p], by rw [List.append_assoc, List.cons_append], hres, hx⟩

theorem owned_last {defs : List Placed} {p : Placed} (hres : 0 < reserved p) :
    Owned (defs ++ [p]) (empty.run defs).size := ⟨defs, p, [], rfl, hres, rfl⟩

/-- Slot 0 and the slot in `data_index` have owners as soon as there are slots. -/
theorem owned_run (defs : List Placed) (hpos : 0 < (empty.run defs).size) :
    Owned defs 0 ∧ Owned defs (empty.run defs).dataIndex := by
  induction defs using List.reverseRecOn with
  | nil => exact absurd hpos (lt_irrefl 0)
  | append_singleton defs p ih =>
      rw [run_concat] at hpos ⊢
      have hindex := dataIndex_le_size defs
      have hsum : 0 < (empty.run defs).size + reserved p := hpos
      rcases Nat.eq_zero_or_pos (empty.run defs).size with hzero | hbefore
      · have hres : 0 < reserved p := by omega
        have howned : Owned (defs ++ [p]) 0 := hzero ▸ owned_last hres
        have hlast : ((empty.run defs).step p).dataIndex = 0 := by
          obtain ⟨d, addr⟩ := p
          cases d with
          | slots name k => exact hzero
          | slot name => exact Nat.le_zero.mp (hzero ▸ hindex)
          | init name c => exact Nat.le_zero.mp (hzero ▸ hindex)
          | inits name first rest => exact Nat.le_zero.mp (hzero ▸ hindex)
        rw [hlast]
        exact ⟨howned, howned⟩
      · obtain ⟨hfirst, hlast⟩ := ih hbefore
        refine ⟨hfirst.concat p, ?_⟩
        obtain ⟨d, addr⟩ := p
        cases d with
        | slots name k => exact owned_last (Nat.lt_add_right _ Nat.one_pos)
        | slot name => exact hlast.concat _
        | init name c => exact hlast.concat _
        | inits name first rest => exact hlast.concat _

end Layout

section Slots

variable {env : Env} {source : List Instruction} {st : State}

theorem Layout.Holds.hasSymbol {l : Layout} (h : l.Holds st) {name : CString} {sym : Symbol}
    (hfind : l.symbols.find? (fun sym => sym.name = name) = some sym) :
    st.HasSymbol name sym := by
  have hne : l.symbols ≠ [] := by
    rintro hnil
    rw [hnil] at hfind
    cases hfind
  obtain ⟨tab, htab⟩ := Option.isSome_iff_exists.mp (h.symTable_isSome hne)
  have hsyms := h.symTable
  rw [htab, Option.getD_some] at hsyms
  obtain ⟨symTable, hget⟩ := hsyms.getSymbol name
  exact ⟨symTable, by rw [htab, hget, hfind]⟩

theorem Layout.Holds.of_hasSymbol {l : Layout} (h : l.Holds st) {name : CString} {sym : Symbol}
    (hsym : st.HasSymbol name sym) :
    l.symbols.find? (fun sym => sym.name = name) = some sym := by
  obtain ⟨symTable, hget⟩ := hsym
  cases htab : st.symTable with
  | none =>
      rw [htab] at hget
      cases hget
  | some tab =>
      have hsyms := h.symTable
      rw [htab, Option.getD_some] at hsyms
      obtain ⟨symTable', hget'⟩ := hsyms.getSymbol name
      rw [htab, hget'] at hget
      exact (Prod.mk.inj (Except.ok.inj hget)).1

theorem State.HasSymbol.unique {name : CString} {sym sym' : Symbol} (h : st.HasSymbol name sym)
    (h' : st.HasSymbol name sym') : sym = sym' := by
  obtain ⟨_, hget⟩ := h
  obtain ⟨_, hget'⟩ := h'
  have hsame := Except.ok.inj (hget.symm.trans hget')
  exact Option.some.inj (Prod.mk.inj hsame).1

theorem Layout.Holds.slot_exists {l : Layout} (h : l.Holds st) {i : ℤ} (hi : 0 ≤ i) :
    (∃ item, DataBuffer.getDataItem st.data i = .ok (some item)) ↔ i < l.size := by
  obtain ⟨n, rfl⟩ := Int.eq_ofNat_of_zero_le hi
  constructor
  · rintro ⟨item, hitem⟩
    by_contra hge
    rw [DataBuffer.getDataItem, h.data.indexPtrList_outside (by simpa using hge)] at hitem
    cases hitem
  · intro hlt
    refine ⟨.unsigned 0, DataBuffer.getDataItem_eq h.data ?_⟩
    rw [List.getElem?_replicate, if_pos (by exact_mod_cast hlt)]

theorem mem_definitions {p : Placed} (hp : p ∈ placedDefs env 0 source) :
    p.1 ∈ definitions source := by
  rw [← map_placedDefs env 0 source]
  exact List.mem_map_of_mem hp

theorem hasSymbol_of_split (hnames : ((definitions source).map VarDef.name).Nodup)
    (hrun : runParser env source = .ok st) {pre post : List Placed} {p : Placed}
    (hsplit : placedDefs env 0 source = pre ++ p :: post) :
    st.HasSymbol p.1.name ((Layout.empty.run pre).symbolOf p) := by
  have hheld := holds_runParser hrun
  rw [hsplit] at hheld
  apply hheld.hasSymbol
  apply Layout.find_symbol
  rw [← map_placedDefs env 0 source, hsplit, List.map_map, List.map_append, List.map_cons,
    List.nodup_append] at hnames
  intro q hq
  exact hnames.2.2 _ (List.mem_map_of_mem hq) _ List.mem_cons_self

theorem exists_split (env : Env) {d : VarDef} (hd : d ∈ definitions source) :
    ∃ pre p post, placedDefs env 0 source = pre ++ p :: post ∧ p.1 = d := by
  rw [← map_placedDefs env 0 source] at hd
  obtain ⟨p, hp, rfl⟩ := List.mem_map.mp hd
  obtain ⟨pre, post, hsplit⟩ := List.append_of_mem hp
  exact ⟨pre, p, post, hsplit, rfl⟩

/-- A name whose symbol records a reserved slot without reserving it shares that slot. -/
theorem LaidOut.reserved_pos (hlaid : LaidOut source st)
    (hnames : ((definitions source).map VarDef.name).Nodup)
    (hslots : ∀ d ∈ definitions source, 1 ≤ d.slotCount)
    (hrun : runParser env source = .ok st) {p : Placed} (hp : p ∈ placedDefs env 0 source) :
    0 < Layout.reserved p := by
  have hheld := holds_runParser hrun
  have hsize := hheld.size_le
  obtain ⟨pre, post, hsplit⟩ := List.append_of_mem hp
  by_contra hzero
  have hsym := hasSymbol_of_split hnames hrun hsplit
  obtain ⟨sym, hsym', hlength, hexists⟩ := hlaid.declared p.1 (mem_definitions hp)
  obtain rfl := hsym'.unique hsym
  have hpos := hslots p.1 (mem_definitions hp)
  -- the index of the symbol is that of the last array, or 0
  have hindex : (Layout.empty.run pre).indexOf p.1 = (Layout.empty.run pre).dataIndex := by
    obtain ⟨d, addr⟩ := p
    cases d with
    | slot name => exact absurd Nat.one_pos hzero
    | slots name k => exact absurd (Nat.lt_add_right _ Nat.one_pos) hzero
    | init name c => rfl
    | inits name first rest => rfl
  rw [hsplit] at hsize hheld
  have hcovers : ((Layout.empty.run pre).symbolOf p).Covers (Layout.empty.run pre).dataIndex := by
    rw [Symbol.Covers, Layout.index_of_split hsize, hindex]
    omega
  have howned : Layout.Owned (pre ++ p :: post) (Layout.empty.run pre).dataIndex := by
    have hlt := (hheld.slot_exists (Int.natCast_nonneg _)).mp (hexists _ hcovers)
    have hle := Layout.dataIndex_le_size pre
    rcases Nat.eq_zero_or_pos (Layout.empty.run pre).size with hempty | hbefore
    · obtain ⟨hfirst, -⟩ := Layout.owned_run (pre ++ p :: post) (by omega)
      rwa [show (Layout.empty.run pre).dataIndex = 0 by omega]
    · obtain ⟨-, before, q, after, rfl, hres, hx⟩ := Layout.owned_run pre hbefore
      exact ⟨before, q, after ++ p :: post, by rw [List.append_assoc, List.cons_append], hres, hx⟩
  obtain ⟨before, q, after, howner, hres, hx⟩ := howned
  have hq : q ∈ placedDefs env 0 source := by
    rw [hsplit, howner]
    exact List.mem_append_right _ List.mem_cons_self
  have hne : p.1.name ≠ q.1.name := by
    intro hname
    rw [← map_placedDefs env 0 source, List.map_map] at hnames
    have hsame := List.inj_on_of_nodup_map hnames hp hq hname
    exact hzero (hsame ▸ hres)
  obtain ⟨sym', hother, hlength', -⟩ := hlaid.declared q.1 (mem_definitions hq)
  obtain rfl := hother.unique (hasSymbol_of_split hnames hrun (hsplit.trans howner))
  have hpos' := hslots q.1 (mem_definitions hq)
  have hindex' : (Layout.empty.run before).indexOf q.1 = (Layout.empty.run before).size := by
    obtain ⟨d, addr⟩ := q
    cases d with
    | slot name => rfl
    | slots name k => rfl
    | init name c => exact absurd hres (lt_irrefl 0)
    | inits name first rest => exact absurd hres (lt_irrefl 0)
  have hcovers' : ((Layout.empty.run before).symbolOf q).Covers
      (Layout.empty.run pre).dataIndex := by
    rw [howner] at hsize
    rw [Symbol.Covers, Layout.index_of_split hsize, hindex', hx]
    omega
  exact hlaid.apart p.1 (mem_definitions hp) q.1 (mem_definitions hq) hne _ _ hsym hother _
    hcovers hcovers'

/-- In an accepted source with distinct names and positive lengths, the names
have the slots they declare exactly when all are uninitialised and every
declared length happens to be the address of its literal's item. -/
theorem laidOut_iff (env : Env) (source : List Instruction) (st : State)
    (hnames : ((definitions source).map VarDef.name).Nodup)
    (hslots : ∀ d ∈ definitions source, 1 ≤ d.slotCount)
    (hrun : runParser env source = .ok st) :
    LaidOut source st ↔ ∀ p ∈ placedDefs env 0 source, Exact p := by
  have hheld := holds_runParser hrun
  have hsize := hheld.size_le
  constructor
  · intro hlaid p hp
    have hres := hlaid.reserved_pos hnames hslots hrun hp
    obtain ⟨pre, post, hsplit⟩ := List.append_of_mem hp
    obtain ⟨sym, hsym, hlength, -⟩ := hlaid.declared p.1 (mem_definitions hp)
    obtain rfl := hsym.unique (hasSymbol_of_split hnames hrun hsplit)
    rw [hsplit] at hsize
    have hend := (Layout.end_le_size pre post p).trans hsize
    have hlength : Layout.lengthOf p = p.1.slotCount := hlength
    rw [Layout.lengthOf_eq (by omega)] at hlength
    obtain ⟨d, addr⟩ := p
    cases d with
    | slot name => trivial
    | slots name k => exact hlength.symm
    | init name c => exact absurd hres (lt_irrefl 0)
    | inits name first rest => exact absurd hres (lt_irrefl 0)
  · intro hexact
    have hpacked := Layout.packed_run hexact hsize
    constructor
    · intro d hd
      obtain ⟨pre, p, post, hsplit, rfl⟩ := exists_split env hd
      have hsym := hasSymbol_of_split hnames hrun hsplit
      refine ⟨_, hsym, ?_, ?_⟩
      · have hp := hexact p (hsplit ▸ List.mem_append_right _ List.mem_cons_self)
        rw [hsplit] at hsize
        have hend := (Layout.end_le_size pre post p).trans hsize
        change Layout.lengthOf p = p.1.slotCount
        rw [Layout.lengthOf_eq (by omega)]
        obtain ⟨d, addr⟩ := p
        cases d with
        | slot name => rfl
        | slots name k => exact hp.symm
        | init name c => exact hp.elim
        | inits name first rest => exact hp.elim
      · intro i hi
        have hmem := List.mem_of_find?_eq_some (hheld.of_hasSymbol hsym)
        exact (hheld.slot_exists ((Int.natCast_nonneg _).trans hi.1)).mpr
          (hpacked.inside _ hmem i hi)
    · intro d hd d' hd' hne sym sym' hsym hsym'
      have hfind := hheld.of_hasSymbol hsym
      have hfind' := hheld.of_hasSymbol hsym'
      apply hpacked.apart.forall (List.mem_of_find?_eq_some hfind)
        (List.mem_of_find?_eq_some hfind')
      rintro rfl
      have hname := List.find?_some hfind
      have hname' := List.find?_some hfind'
      rw [decide_eq_true_eq] at hname hname'
      exact hne (hname.symm.trans hname')

/-- `DATA a` and `DATA b[16]`, where the literal's item is at address 16. -/
theorem laidOut_slot_and_array :
    ∃ st, runParser ⟨⟨fun _ => 0, fun _ => none, 0⟩, fun _ => 16⟩
        [.varDef (.slot ⟨[97], by decide⟩), .varDef (.slots ⟨[98], by decide⟩ (.int 16))] = .ok st ∧
      LaidOut [.varDef (.slot ⟨[97], by decide⟩), .varDef (.slots ⟨[98], by decide⟩ (.int 16))]
        st := by
  obtain ⟨st, hrun⟩ := exists_of_isOk (x := runParser ⟨⟨fun _ => 0, fun _ => none, 0⟩, fun _ => 16⟩
    [.varDef (.slot ⟨[97], by decide⟩), .varDef (.slots ⟨[98], by decide⟩ (.int 16))])
      (by decide)
  refine ⟨st, hrun, ?_⟩
  apply (laidOut_iff _ _ _ (by decide) (by decide) hrun).mpr
  simp [placedDefs, Exact, IndexConstant.value]

/-- `DATA a = 5` records slot 0 of an empty buffer. -/
theorem not_laidOut_one_initialised :
    ∃ st, runParser ⟨⟨fun _ => 0, fun _ => none, 0⟩, fun _ => 0x5555557592d0⟩
        [.varDef (.init ⟨[97], by decide⟩ (.index (.int 5)))] = .ok st ∧
      ¬ LaidOut [.varDef (.init ⟨[97], by decide⟩ (.index (.int 5)))] st := by
  obtain ⟨st, hrun⟩ := exists_of_isOk (x := runParser
    ⟨⟨fun _ => 0, fun _ => none, 0⟩, fun _ => 0x5555557592d0⟩
    [.varDef (.init ⟨[97], by decide⟩ (.index (.int 5)))]) (by decide)
  refine ⟨st, hrun, ?_⟩
  intro hlaid
  have hpos := hlaid.reserved_pos (by decide) (by decide) hrun List.mem_cons_self
  exact lt_irrefl 0 hpos

end Slots

end Parser

end SimpleVm
