import SimpleVm.Common.CmdlineAccounting
import SimpleVm.Assembler.FileIo

/-!
# The options of the assembler

`main` reads the verbosity and the file name with `raw_string`, which is
`NULL` for an option that has no value. Both have one whenever the command line
is accepted. The file name is not a list, so the last of several is taken.
-/

namespace SimpleVm.Cmdline

/-- A text in the source. -/
def literal (text : String) : CString := CString.read (text.toList.map Char.toUInt8)

/-- The calls of `add_cmdline` in `main.c`. -/
def registrations : List Registration :=
  [⟨118, some (literal "verbosity"), some (literal "verbosity"), some (literal "0"), none,
      { args := true }⟩,
    ⟨111, some (literal "output"), some (literal "output"), some (literal "out.of"), none,
      { args := true }⟩,
    ⟨112, some (literal "path"), some (literal "path"), some (literal ""), none,
      { args := true, list := true }⟩,
    ⟨104, some (literal "help"), none, none, some .exits, {}⟩,
    ⟨86, some (literal "version"), none, none, some .exits, {}⟩,
    ⟨0, none, none, none, none, {}⟩,
    ⟨0, none, some (literal "files"), none, none, { reqd := true, anon := true }⟩]

def options : List CmdlineEntry := registrations.map Registration.entry

/-- `raw_string(get_cmd_opt(name))`, where it is read. -/
def optionText (args : List CmdlineEntry) (name : String) : Except Halt CString :=
  match getCmdOpt args (literal name) with
  | none => .error .invalidAccess
  | some str => .ok str

/-- `main` up to the first file that is opened. -/
def openMain (fs : FileSystem) (envp argv : List CString) : Except Halt FileT := do
  let args ← parseCmdline options envp argv
  -- `INIT_TRACE` and `PUSH_TRACE_VERBOSITY`
  let _ ← optionText args "verbosity"
  let fname ← optionText args "files"
  FileIo.createFile fs fname FileIo.asmExt

/-! ## File names -/

theorem passes_of_findEntry {test : CmdlineEntry → Bool} {args : List CmdlineEntry} {i : ℕ}
    {item : CmdlineEntry} (h : findEntry test args = some (i, item)) : test item = true := by
  induction args generalizing i with
  | nil => cases h
  | cons first args ih =>
      rw [findEntry] at h
      split at h
      · next hfirst =>
          cases h
          exact hfirst
      · obtain ⟨⟨j, found⟩, hfound, heq⟩ := Option.map_eq_some_iff.mp h
        cases heq
        exact ih hfound

/-- The divider stands in front of the file name, and has no letter and no long name either. -/
theorem getShortOpt_ne_files {ch : ℤ} {i : ℕ} {item : CmdlineEntry}
    (hfind : getShortOpt options ch = some (i, item)) : i ≠ 6 := by
  rintro rfl
  have hitem : some item = options[6]? := (getElem?_of_findEntry hfind).symm
  have hch : item.shortOpt = ch := of_decide_eq_true (passes_of_findEntry hfind)
  cases hitem
  subst hch
  cases hfind

theorem getLongOpt_ne_files {str : CString} {i : ℕ} {item : CmdlineEntry}
    (hfind : getLongOpt options str = some (i, item)) : i ≠ 6 := by
  rintro rfl
  have hitem : some item = options[6]? := (getElem?_of_findEntry hfind).symm
  have hlong : item.longOpt = some str := of_decide_eq_true (passes_of_findEntry hfind)
  cases hitem
  cases hlong

theorem ReadsLetters.place_ne_files {str : List UInt8} {taken : List CString}
    {occs : List Occurrence} (h : ReadsLetters options str taken occs) :
    ∀ occ ∈ occs, occ.place ≠ 6 := by
  have hone : ∀ {ch : ℤ} {i : ℕ} {takesArgs : Bool} (value : Option CString),
      Found (getShortOpt options ch) i takesArgs →
      ∀ occ ∈ [(⟨i, value⟩ : Occurrence)], occ.place ≠ 6 := by
    rintro ch i takesArgs value ⟨item, hfind, -⟩
    exact List.forall_mem_singleton.mpr (getShortOpt_ne_files hfind)
  induction h with
  | switch hfound => exact hone _ hfound
  | bundled hfound _ ih => exact List.forall_mem_append.mpr ⟨hone none hfound, ih⟩
  | equals hfound hv => exact hone _ hfound
  | joined hfound hv hhead => exact hone _ hfound
  | next hfound => exact hone _ hfound

/-- Only an element that does not begin with a dash is a file name. -/
theorem ReadsElement.files {ptr : CString} {taken : List CString} {occs : List Occurrence}
    (h : ReadsElement options ptr taken occs) : ∀ occ ∈ occs, occ.place = 6 →
      occ.value = some ptr ∧ ptr.bytes.head? ≠ some 45 := by
  have hlong : ∀ {name : CString} {i : ℕ} {takesArgs : Bool} (value : Option CString),
      Found (getLongOpt options name) i takesArgs →
      ∀ occ ∈ [(⟨i, value⟩ : Occurrence)], occ.place = 6 →
        occ.value = some ptr ∧ ptr.bytes.head? ≠ some 45 := by
    rintro name i takesArgs value ⟨item, hfind, -⟩
    exact List.forall_mem_singleton.mpr fun hplace => absurd hplace (getLongOpt_ne_files hfind)
  cases h with
  | letters hptr hdash h => exact fun occ hocc hplace => absurd hplace (h.place_ne_files occ hocc)
  | longSwitch hname hfound => exact hlong _ hfound
  | longIgnored hname hfound => exact hlong _ hfound
  | longNext hname hfound => exact hlong _ hfound
  | longEquals hname hfound hv => exact hlong _ hfound
  | positional hptr hfind => exact List.forall_mem_singleton.mpr fun _ => ⟨rfl, hptr⟩

theorem Reads.files {cmds : List CString} {occs : List Occurrence} (h : Reads options cmds occs) :
    ∀ occ ∈ occs, occ.place = 6 →
      ∃ file ∈ cmds, occ.value = some file ∧ file.bytes.head? ≠ some 45 := by
  induction h with
  | nil => exact List.forall_mem_nil _
  | @cons ptr taken cmds occs occs' h hrest ih =>
      rw [List.forall_mem_append]
      constructor
      · intro occ hocc hplace
        exact ⟨ptr, List.mem_cons_self, h.files occ hocc hplace⟩
      · intro occ hocc hplace
        obtain ⟨file, hfile, hvalue⟩ := ih occ hocc hplace
        exact ⟨file, List.mem_cons_of_mem _ (List.mem_append_right _ hfile), hvalue⟩

/-! ## Values -/

theorem getCmdOpt_scalar {args : List CmdlineEntry} {name : CString} {item : CmdlineEntry}
    {value : Option CString} (hfind : getOptByName args name = some item)
    (hswitch : item.type.switch = false) (hvalue : contents item.value = value.toList) :
    getCmdOpt args name = value := by
  rw [getCmdOpt, hfind]
  dsimp only
  rw [hswitch, if_neg Bool.false_ne_true]
  cases hitem : item.value with
  | none =>
      rw [hitem] at hvalue
      cases value with
      | none => rfl
      | some v => cases hvalue
  | some lst =>
      rw [hitem] at hvalue
      have hlist : lst.toList = value.toList := hvalue
      cases value with
      | none => cases hlist
      | some v =>
          obtain ⟨rfl, -⟩ := List.cons.inj hlist
          simp [iterateStringList, StringList.toList]

theorem nodup_names : registrations.Pairwise fun a b => a.name = b.name → a.name = none := by
  decide

/-- The last value given to an option that is no list, or the one it is registered with. -/
theorem getCmdOpt_foldl {vars : List CmdlineEntry} (occs : List Occurrence) {i : ℕ}
    {r : Registration} (hr : registrations[i]? = some r) {name : CString}
    (hname : r.name = some name) (hlist : r.type.list = false) :
    getCmdOpt (occs.foldl record (options ++ vars)) name =
      (given occs i).getLast?.or r.defVal := by
  have hopt : options[i]? = some r.entry := by
    rw [options, List.getElem?_map, hr, Option.map_some]
  have hfinal := getElem?_foldl_record (options ++ vars) occs i
  obtain ⟨hlt, -⟩ := List.getElem?_eq_some_iff.mp hopt
  rw [List.getElem?_append_left hlt, hopt, Option.map_some] at hfinal
  have hpair : options.Pairwise fun a b => a.name = b.name → a.name = none :=
    List.pairwise_map.mpr nodup_names
  have hfind := getOptByName_of_unique hpair (sameOptions_foldl (options ++ vars) occs) hopt hname
  rw [hfinal] at hfind
  have hplain : ∀ r ∈ registrations, r.type.seen = false ∧ r.type.switch = false := by decide
  obtain ⟨hseen, hswitch⟩ := hplain r (List.mem_of_getElem? hr)
  have haccumulated := accumulated_foldl r hseen occs i
  have hvalues := haccumulated.values
  rw [if_neg (Bool.eq_false_iff.mp hlist)] at hvalues
  exact getCmdOpt_scalar hfind
    ((congrArg (fun e => e.type.switch) haccumulated.options).trans hswitch) hvalues

theorem accepted_values {envp argv : List CString} {args : List CmdlineEntry}
    (hrun : parseCmdline options envp argv = .ok args) :
    ∃ occs file, Reads options argv.tail occs ∧ (given occs 6).getLast? = some file ∧
      file ∈ argv.tail ∧ file.bytes.head? ≠ some 45 ∧ optionText args "files" = .ok file ∧
      optionText args "verbosity" = .ok ((given occs 0).getLast?.getD (literal "0")) ∧
      optionText args "output" = .ok ((given occs 1).getLast?.getD (literal "out.of")) := by
  obtain ⟨vars, occs, -, hreads, hrequired, rfl⟩ := reads_of_parseCmdline hrun
  obtain ⟨occ, hocc, hplace⟩ : ∃ occ ∈ occs, occ.place = 6 := by
    rcases hrequired 6 _ rfl rfl with hseen | hoccurs
    · cases hseen
    · exact hoccurs
  have hgiven : ∀ file, file ∈ given occs 6 ↔
      ∃ occ ∈ occs, occ.place = 6 ∧ occ.value = some file := by
    intro file
    simp [given, List.mem_filterMap, and_assoc]
  obtain ⟨first, -, hfirst, -⟩ := hreads.files occ hocc hplace
  have hne : given occs 6 ≠ [] :=
    List.ne_nil_of_mem ((hgiven first).mpr ⟨occ, hocc, hplace, hfirst⟩)
  obtain ⟨file, hlast⟩ : ∃ file, (given occs 6).getLast? = some file :=
    ⟨_, List.getLast?_eq_some_getLast hne⟩
  obtain ⟨occ', hocc', hplace', hvalue'⟩ := (hgiven file).mp (List.mem_of_getLast? hlast)
  obtain ⟨file', hmem, hfile', hdash⟩ := hreads.files occ' hocc' hplace'
  obtain rfl : file = file' := Option.some.inj (hvalue'.symm.trans hfile')
  have htext : ∀ {i : ℕ} {r : Registration} {name : String} {value : CString},
      registrations[i]? = some r → r.name = some (literal name) → r.type.list = false →
      (given occs i).getLast?.or r.defVal = some value →
      optionText (occs.foldl record (options ++ vars)) name = .ok value := by
    intro i r name value hr hname hlist hvalue
    rw [optionText, getCmdOpt_foldl occs hr hname hlist, hvalue]
  have hfname : optionText (occs.foldl record (options ++ vars)) "files" = .ok file :=
    htext (i := 6) rfl rfl rfl (by rw [hlast]; rfl)
  have hverbosity : optionText (occs.foldl record (options ++ vars)) "verbosity" =
      .ok ((given occs 0).getLast?.getD (literal "0")) :=
    htext (i := 0) rfl rfl rfl (by cases (given occs 0).getLast? <;> rfl)
  have houtput : optionText (occs.foldl record (options ++ vars)) "output" =
      .ok ((given occs 1).getLast?.getD (literal "out.of")) :=
    htext (i := 1) rfl rfl rfl (by cases (given occs 1).getLast? <;> rfl)
  exact ⟨occs, file, hreads, hlast, hmem, hdash, hfname, hverbosity, houtput⟩

/-- When the command line is accepted, `main` has a verbosity and a file to open, which is the
last of the arguments that are file names. -/
theorem openMain_spec (fs : FileSystem) {envp argv : List CString} {args : List CmdlineEntry}
    (hrun : parseCmdline options envp argv = .ok args) :
    ∃ occs file, Reads options argv.tail occs ∧ (given occs 6).getLast? = some file ∧
      file ∈ argv.tail ∧ file.bytes.head? ≠ some 45 ∧ optionText args "files" = .ok file ∧
      optionText args "verbosity" = .ok ((given occs 0).getLast?.getD (literal "0")) ∧
      optionText args "output" = .ok ((given occs 1).getLast?.getD (literal "out.of")) ∧
      openMain fs envp argv = FileIo.createFile fs file FileIo.asmExt := by
  obtain ⟨occs, file, hreads, hlast, hmem, hdash, hfname, hverbosity, houtput⟩ :=
    accepted_values hrun
  refine ⟨occs, file, hreads, hlast, hmem, hdash, hfname, hverbosity, houtput, ?_⟩
  rw [openMain, hrun, ok_bind, hverbosity, ok_bind, hfname, ok_bind]

/-- `asm -v 3 a b`, where no file can be opened. -/
theorem openMain_spec_two_files :
    ∃ args occs file,
      parseCmdline options [] [literal "asm", literal "-v", literal "3", literal "a", literal "b"] =
          .ok args ∧
        Reads options [literal "-v", literal "3", literal "a", literal "b"] occs ∧
        (given occs 6).getLast? = some file ∧
        openMain ⟨[], fun _ => false, fun _ => none⟩ []
            [literal "asm", literal "-v", literal "3", literal "a", literal "b"] =
          FileIo.createFile ⟨[], fun _ => false, fun _ => none⟩ file FileIo.asmExt := by
  obtain ⟨args, hrun⟩ := exists_of_isOk (x := parseCmdline options []
    [literal "asm", literal "-v", literal "3", literal "a", literal "b"]) (by decide)
  obtain ⟨occs, file, hreads, hlast, -, -, -, -, -, hopen⟩ := openMain_spec _ hrun
  exact ⟨args, occs, file, hrun, hreads, hlast, hopen⟩

end SimpleVm.Cmdline
