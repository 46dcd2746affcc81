import SimpleVm.Common.CmdlineReading

/-!
# The values of the options

Every occurrence of an option changes its own entry only. A list grows by the
pieces of each value, any other option keeps the last one. So what an option
ends with depends on the occurrences in the reading of the arguments alone.
-/

namespace SimpleVm.Cmdline

/-- The arguments of a call of `add_cmdline`. -/
structure Registration where
  shortOpt : ℤ
  longOpt : Option CString
  name : Option CString
  defVal : Option CString
  cb : Option Callback
  type : CmdType

def Registration.entry (r : Registration) : CmdlineEntry :=
  addCmdline r.shortOpt r.longOpt r.name r.defVal r.cb r.type

def contents (value : Option StringList) : List CString :=
  (value.map StringList.toList).getD []

/-- A separator at the very end has no piece behind it. -/
def keptParts (parts : List (List UInt8)) : List (List UInt8) :=
  if 1 < parts.length ∧ parts.getLast? = some [] then parts.dropLast else parts

def pieces (v : CString) : List CString := (keptParts (v.bytes.splitOn 58)).map CString.read

/-- The values given to the option at place `i`, in order. -/
def given (occs : List Occurrence) (i : ℕ) : List CString :=
  (occs.filter fun occ => occ.place = i).filterMap Occurrence.value

/-- What the entry of the option `r` at place `i` has become. -/
structure Accumulated (r : Registration) (occs : List Occurrence) (i : ℕ)
    (item : CmdlineEntry) : Prop where
  options : plain item = plain r.entry
  values : contents item.value =
    if r.type.list then r.defVal.toList ++ (given occs i).flatMap pieces
    else ((given occs i).getLast?.or r.defVal).toList
  seen : item.type.seen = true ↔ ∃ occ ∈ occs, occ.place = i

/-! ## Splitting -/

theorem eq_nil_of_splitOnP {p : UInt8 → Bool} {l : List UInt8} (h : l.splitOnP p = [[]]) :
    l = [] := by
  cases l with
  | nil => rfl
  | cons x xs =>
      rw [List.splitOnP_cons_eq_if_modifyHead] at h
      split at h
      · have htail : xs.splitOnP p = [] := (List.cons.inj h).2
        exact (List.splitOnP_ne_nil p xs htail).elim
      · obtain ⟨q, qs, hq⟩ := List.exists_cons_of_ne_nil (List.splitOnP_ne_nil p xs)
        simp [hq] at h

theorem keptParts_singleton (part : List UInt8) : keptParts [part] = [part] := by
  simp [keptParts]

theorem keptParts_cons (part : List UInt8) {parts : List (List UInt8)} (hne : parts ≠ [])
    (hone : parts ≠ [[]]) : keptParts (part :: parts) = part :: keptParts parts := by
  obtain ⟨q, qs, rfl⟩ := List.exists_cons_of_ne_nil hne
  unfold keptParts
  cases qs with
  | nil =>
      have hq : q ≠ [] := fun h => hone (by rw [h])
      simp [hq]
  | cons q' qs => 
      by_cases hlast : (q' :: qs).getLast? = some []
      · simp [List.getLast?_cons_cons, hlast]
      · simp [List.getLast?_cons_cons, hlast]

theorem toList_splitFrom (ch : UInt8) (piece str : List UInt8) :
    (StringList.splitFrom ch piece str).toList =
      (keptParts ((str.splitOn ch).modifyHead (piece ++ ·))).map CString.read := by
  induction str generalizing piece with
  | nil =>
      simp [StringList.splitFrom, StringList.toList, StringList.singleton, keptParts_singleton]
  | cons b rest ih =>
      rw [StringList.splitFrom, List.splitOn_eq_splitOnP, List.splitOnP_cons_eq_if_modifyHead,
        ← List.splitOn_eq_splitOnP]
      by_cases hb : b = ch
      · subst hb
        simp only [beq_self_eq_true, if_true, List.modifyHead_cons, List.append_nil]
        by_cases hrest : rest = []
        · subst hrest
          simp [StringList.toList, StringList.singleton, keptParts]
        · have hone : rest.splitOn b ≠ [[]] := fun h => hrest (eq_nil_of_splitOnP h)
          have hhead : (rest.splitOn b).modifyHead ([] ++ ·) = rest.splitOn b := by
            simp only [List.nil_append]
            exact congrFun List.modifyHead_id _
          have hne : rest.splitOn b ≠ [] := List.splitOnP_ne_nil _ rest
          rw [if_neg hrest, keptParts_cons piece hne hone, List.map_cons, ← hhead, ← ih []]
          simp only [StringList.cons, StringList.toList]
      · rw [if_neg hb, if_neg (by simpa using hb), ih, List.modifyHead_modifyHead]
        congr 3
        funext part
        simp

theorem toList_splitString (v : CString) : (StringList.splitString v 58).toList = pieces v := by
  rw [StringList.splitString, toList_splitFrom, pieces]
  congr 2
  simp only [List.nil_append]
  exact congrFun List.modifyHead_id _

/-! ## One entry -/

section Entry

variable (occ : Occurrence) (item : CmdlineEntry)

@[simp] theorem list_apply : (occ.apply item).type.list = item.type.list :=
  congrArg (fun e => e.type.list) (plain_apply occ item)

theorem seen_apply : (occ.apply item).type.seen = true := by
  unfold Occurrence.apply
  cases occ.value with
  | none => rfl
  | some v => exact congrArg (fun item => item.type.seen) (addCmdlineArg_setSeen item v)

theorem contents_apply_list (hlist : item.type.list = true) :
    contents (occ.apply item).value = contents item.value ++ occ.value.toList.flatMap pieces := by
  unfold Occurrence.apply
  cases occ.value with
  | none => simp [setSeen]
  | some v =>
      simp only [addCmdlineArg, setSeen, hlist, if_true]
      cases item.value with
      | none => simp [contents, toList_splitString]
      | some value => simp [contents, StringList.append, ← toList_splitString, StringList.toList]

theorem contents_apply_scalar (hlist : item.type.list = false) :
    contents (occ.apply item).value =
      (occ.value.map fun v => v :: (contents item.value).tail).getD (contents item.value) := by
  unfold Occurrence.apply
  cases occ.value with
  | none => simp [setSeen]
  | some v =>
      simp only [addCmdlineArg, setSeen, hlist, Bool.false_eq_true, if_false]
      cases item.value with
      | none => simp [contents, StringList.singleton, StringList.toList]
      | some value => simp [contents, StringList.toList]

end Entry

/-! ## All entries -/

theorem getElem?_foldl_record (args : List CmdlineEntry) (occs : List Occurrence) (i : ℕ) :
    (occs.foldl record args)[i]? = args[i]?.map fun item =>
      (occs.filter fun occ => occ.place = i).foldl (fun item occ => occ.apply item) item := by
  induction occs generalizing args with
  | nil => simp
  | cons occ occs ih =>
      rw [List.foldl_cons, ih, record, List.getElem?_modify]
      by_cases hi : occ.place = i
      · cases args[i]? with
        | none => rfl
        | some item => simp [hi]
      · cases args[i]? with
        | none => rfl
        | some item => simp [hi]

section Fold

variable {item : CmdlineEntry} (occs : List Occurrence)

theorem plain_foldl_apply :
    plain (occs.foldl (fun item occ => occ.apply item) item) = plain item := by
  induction occs generalizing item with
  | nil => rfl
  | cons occ occs ih => rw [List.foldl_cons, ih, plain_apply]

theorem seen_foldl_apply :
    (occs.foldl (fun item occ => occ.apply item) item).type.seen = true ↔
      item.type.seen = true ∨ occs ≠ [] := by
  induction occs generalizing item with
  | nil => simp
  | cons occ occs ih => simp [ih, seen_apply]

theorem contents_foldl_list (hlist : item.type.list = true) :
    contents (occs.foldl (fun item occ => occ.apply item) item).value =
      contents item.value ++ (occs.filterMap Occurrence.value).flatMap pieces := by
  induction occs generalizing item with
  | nil => simp
  | cons occ occs ih =>
      have hlist' : (occ.apply item).type.list = true := (list_apply occ item).trans hlist
      rw [List.foldl_cons, ih hlist', contents_apply_list occ item hlist, List.append_assoc]
      cases hval : occ.value with
      | none => simp [hval]
      | some v => simp [hval]

/-- The last value takes the place of the one there was. -/
theorem contents_foldl_scalar (hlist : item.type.list = false) :
    contents (occs.foldl (fun item occ => occ.apply item) item).value =
      ((occs.filterMap Occurrence.value).getLast?.map fun v =>
        v :: (contents item.value).tail).getD (contents item.value) := by
  induction occs generalizing item with
  | nil => simp
  | cons occ occs ih =>
      have hlist' : (occ.apply item).type.list = false := (list_apply occ item).trans hlist
      have happly := contents_apply_scalar occ item hlist
      rw [List.foldl_cons, ih hlist']
      cases hval : occ.value with
      | none =>
          rw [hval] at happly
          simp only [Option.map_none, Option.getD_none] at happly
          rw [happly, List.filterMap_cons_none hval]
      | some v =>
          rw [hval] at happly
          simp only [Option.map_some, Option.getD_some] at happly
          rw [happly, List.filterMap_cons_some hval, List.getLast?_cons]
          cases (occs.filterMap Occurrence.value).getLast? with
          | none => rfl
          | some w => rfl

end Fold

theorem contents_entry (r : Registration) : contents r.entry.value = r.defVal.toList := by
  unfold Registration.entry addCmdline contents
  cases r.defVal with
  | none => rfl
  | some v => rfl

theorem accumulated_foldl (r : Registration) (hseen : r.type.seen = false)
    (occs : List Occurrence) (i : ℕ) :
    Accumulated r occs i ((occs.filter fun occ => occ.place = i).foldl
      (fun item occ => occ.apply item) r.entry) := by
  constructor
  · exact plain_foldl_apply _
  · by_cases hlist : r.type.list = true
    · rw [if_pos hlist, contents_foldl_list _ hlist, contents_entry]
      rfl
    · have hscalar : r.entry.type.list = false := Bool.eq_false_iff.mpr hlist
      have htail : r.defVal.toList.tail = [] := by cases r.defVal <;> rfl
      rw [if_neg hlist, contents_foldl_scalar _ hscalar, contents_entry, htail]
      unfold given
      cases ((occs.filter fun occ => occ.place = i).filterMap Occurrence.value).getLast? with
      | none => simp
      | some v => simp
  · have hentry : r.entry.type.seen = false := hseen
    rw [seen_foldl_apply, hentry]
    simp [List.filter_eq_nil_iff]

theorem findEntry_of_first {test : CmdlineEntry → Bool} {args : List CmdlineEntry} {i : ℕ}
    {item : CmdlineEntry} (hget : args[i]? = some item) (hitem : test item = true)
    (hfirst : ∀ j < i, ∀ e, args[j]? = some e → test e = false) :
    findEntry test args = some (i, item) := by
  induction args generalizing i with
  | nil => simp at hget
  | cons first args ih =>
      rw [findEntry]
      cases i with
      | zero =>
          obtain rfl : first = item := by simpa using hget
          rw [if_pos hitem]
      | succ i =>
          have hfalse := hfirst 0 (Nat.succ_pos i) first rfl
          have hrest := ih hget fun j hj e he => hfirst (j + 1) (Nat.succ_lt_succ hj) e he
          rw [if_neg (by simp [hfalse]), hrest]
          rfl

/-- The option at a place of the table is found by its name. -/
theorem getOptByName_of_unique {table vars args : List CmdlineEntry}
    (hnames : table.Pairwise fun a b => a.name = b.name → a.name = none)
    (hsame : SameOptions (table ++ vars) args) {i : ℕ} {opt : CmdlineEntry}
    (hopt : table[i]? = some opt) {name : CString} (hname : opt.name = some name) :
    getOptByName args name = args[i]? := by
  have hfind : findEntry (fun item => item.name = some name) table = some (i, opt) := by
    apply findEntry_of_first hopt (by simpa using hname)
    intro j hj e he
    obtain ⟨hi, rfl⟩ := List.getElem?_eq_some_iff.mp hopt
    obtain ⟨hj', rfl⟩ := List.getElem?_eq_some_iff.mp he
    have hpair := List.pairwise_iff_getElem.mp hnames j i hj' hi hj
    rw [decide_eq_false_iff_not]
    intro heq
    simp [hpair (heq.trans hname.symm)] at heq
  obtain ⟨item, hfind', -⟩ :=
    findEntry_congr (fun _ => rfl) hsame (findEntry_append hfind vars)
  rw [getOptByName, hfind', getElem?_of_findEntry hfind', Option.map_some]

/-- What `parse_cmdline` leaves in the entry of every registered option. -/
theorem parseCmdline_values (regs : List Registration) (env argv : List CString)
    (hseen : ∀ r ∈ regs, r.type.seen = false)
    (hnames : regs.Pairwise fun a b => a.name = b.name → a.name = none)
    (occs : List Occurrence) (hreads : Reads (regs.map Registration.entry) argv.tail occs)
    (args : List CmdlineEntry)
    (hrun : parseCmdline (regs.map Registration.entry) env argv = .ok args) (i : ℕ)
    (r : Registration) (hr : regs[i]? = some r) :
    ∃ item, args[i]? = some item ∧ Accumulated r occs i item ∧
      ∀ name, r.name = some name → getOptByName args name = some item := by
  obtain ⟨vars, -, hrest⟩ := bind_eq_ok.mp hrun
  have hext : Extends (regs.map Registration.entry) (regs.map Registration.entry ++ vars) :=
    ⟨vars, SameOptions.refl _⟩
  rw [hreads.parse hext none, ok_bind] at hrest
  obtain rfl : occs.foldl record (regs.map Registration.entry ++ vars) = args := by
    simp only at hrest
    split at hrest
    · cases hrest
    · exact Except.ok.inj hrest
  have hopt : (regs.map Registration.entry)[i]? = some r.entry := by
    rw [List.getElem?_map, hr, Option.map_some]
  have hget : (regs.map Registration.entry ++ vars)[i]? = some r.entry := by
    obtain ⟨hlt, -⟩ := List.getElem?_eq_some_iff.mp hopt
    rw [List.getElem?_append_left hlt, hopt]
  have hfinal := getElem?_foldl_record (regs.map Registration.entry ++ vars) occs i
  rw [hget, Option.map_some] at hfinal
  refine ⟨_, hfinal, accumulated_foldl r (hseen r (List.mem_of_getElem? hr)) occs i, ?_⟩
  intro name hname
  have hpair : (regs.map Registration.entry).Pairwise fun a b => a.name = b.name → a.name = none :=
    List.pairwise_map.mpr hnames
  rw [getOptByName_of_unique hpair (sameOptions_foldl _ occs) hopt hname, hfinal]

/-- The calls of `add_cmdline` that make the table of the test program. -/
def configRegistrations : List Registration :=
  [⟨118, some (CString.read [118, 101, 114, 98, 111, 115, 105, 116, 121]),
      some (CString.read [118, 101, 114, 98, 111, 115, 105, 116, 121]), some (CString.read [48]),
      none, { args := true }⟩,
    ⟨120, none, some (CString.read [101, 120, 120]), some (CString.read [48]), none,
      { switch := true }⟩,
    ⟨76, none, some (CString.read [108, 115, 116]), none, none, { list := true, args := true }⟩,
    ⟨104, some (CString.read [104, 101, 108, 112]), none, none, some .exits, {}⟩,
    ⟨86, some (CString.read [118, 101, 114, 115, 105, 111, 110]), none, none, some .exits, {}⟩,
    ⟨0, none, none, none, none, {}⟩,
    ⟨0, none, some (CString.read [102, 105, 108, 101, 115]), none, none,
      { reqd := true, anon := true }⟩]

/-- `-v 3 -L=a:b f` gives the list the pieces `a` and `b`. -/
theorem parseCmdline_values_createConfig :
    ∃ args item, parseCmdline createConfig [] [CString.read [116], CString.read [45, 118],
        CString.read [51], CString.read [45, 76, 61, 97, 58, 98], CString.read [102]] = .ok args ∧
      getOptByName args (CString.read [108, 115, 116]) = some item ∧
      contents item.value = [CString.read [97], CString.read [98]] := by
  obtain ⟨args, hrun⟩ := exists_of_isOk (x := parseCmdline createConfig [] [CString.read [116],
    CString.read [45, 118], CString.read [51], CString.read [45, 76, 61, 97, 58, 98],
    CString.read [102]]) (by decide)
  have hfile : Reads (configRegistrations.map Registration.entry) [CString.read [102]]
      [⟨6, some (CString.read [102])⟩] := .cons (.positional (by decide) rfl) .nil
  have hlist : Reads (configRegistrations.map Registration.entry)
      [CString.read [45, 76, 61, 97, 58, 98], CString.read [102]]
      [⟨2, some (CString.read [97, 58, 98])⟩, ⟨6, some (CString.read [102])⟩] :=
    .cons (.letters rfl (by decide)
      (.equals (v := CString.read [97, 58, 98]) ⟨_, rfl, rfl, rfl⟩ (by decide))) hfile
  have hreads : Reads (configRegistrations.map Registration.entry) [CString.read [45, 118],
      CString.read [51], CString.read [45, 76, 61, 97, 58, 98], CString.read [102]]
      [⟨0, some (CString.read [51])⟩, ⟨2, some (CString.read [97, 58, 98])⟩,
        ⟨6, some (CString.read [102])⟩] :=
    .cons (.letters rfl (by decide) (.next (v := CString.read [51]) ⟨_, rfl, rfl, rfl⟩)) hlist
  obtain ⟨item, -, hacc, hname⟩ := parseCmdline_values configRegistrations [] [CString.read [116],
    CString.read [45, 118], CString.read [51], CString.read [45, 76, 61, 97, 58, 98],
    CString.read [102]] (by decide) (by decide) _ hreads args hrun 2 _ rfl
  refine ⟨args, item, hrun, hname _ rfl, ?_⟩
  rw [hacc.values]
  decide

end SimpleVm.Cmdline
