import SimpleVm.Common.CmdlineOutcomes
import SimpleVm.Common.CmdlineValues

/-!
# No text is dropped

What is accepted has been read element by element, and what occurs in it has
been recorded. A text behind `=` is dropped where the option in front of it
takes no argument, and behind a letter it is one more bundle where `=` is
itself a letter.
-/

namespace SimpleVm.Cmdline

/-! ## What is to come of every element -/

/-- A text behind `=` is given to an option that takes none. -/
inductive GivesToSwitch (table : List CmdlineEntry) (ptr : CString) : Prop
  | letter {str : List UInt8} (hptr : IsBundle ptr str)
      (h : LettersLead table
        (fun item str => item.cb = none ∧ item.type.args = false ∧ str.head? = some 61) str) :
      GivesToSwitch table ptr
  | longName {name text : CString} {i : ℕ} (hname : 61 ∉ name.bytes)
      (hptr : ptr = dashDash (name.append (equalsText text)))
      (hfound : Found (getLongOpt table name) i false) : GivesToSwitch table ptr

/-- Every element is switches, or a value, or both, and nothing else is in it. -/
inductive Accounts (table : List CmdlineEntry) : List CString → List Occurrence → Prop
  | nil : Accounts table [] []
  | cons {ptr : CString} {taken cmds : List CString} {occs occs' : List Occurrence}
      (h : ReadsElement table ptr taken occs) (hgives : ¬ GivesToSwitch table ptr)
      (hrest : Accounts table cmds occs') : Accounts table (ptr :: (taken ++ cmds)) (occs ++ occs')

/-- What the option `opt` at place `i` of the table has become: it is marked when it occurs, a list
has grown by the pieces of each value, and any other option has the last value. -/
structure Stored (occs : List Occurrence) (i : ℕ) (opt item : CmdlineEntry) : Prop where
  seen : item.type.seen = true ↔ opt.type.seen = true ∨ ∃ occ ∈ occs, occ.place = i
  list : opt.type.list = true →
    contents item.value = contents opt.value ++ (given occs i).flatMap pieces
  last : opt.type.list = false → ∀ v, (given occs i).getLast? = some v →
    contents item.value = v :: (contents opt.value).tail
  kept : given occs i = [] → contents item.value = contents opt.value

/-- The arguments alone decide, and what is accepted has been read to the last character and is
in the final values of its options. -/
structure Accounted (table : List CmdlineEntry) (env argv : List CString) : Prop where
  determined : ¬ ReadsBehind table env argv
  stored : ∀ args, parseCmdline table env argv = .ok args → ∃ occs,
    Accounts table argv.tail occs ∧ (∀ occ ∈ occs, occ.place < table.length) ∧
      ∀ i opt, table[i]? = some opt → ∃ item, args[i]? = some item ∧ Stored occs i opt item

def RequiredOccur (table : List CmdlineEntry) (occs : List Occurrence) : Prop :=
  ∀ i opt, table[i]? = some opt → opt.type.reqd = true →
    opt.type.seen = true ∨ ∃ occ ∈ occs, occ.place = i

/-- The arguments can be read, with all that is required in them, and in one
of them a text is given to an option that takes none. -/
def GivesAway (table : List CmdlineEntry) (cmds : List CString) : Prop :=
  ∃ occs, Reads table cmds occs ∧ RequiredOccur table occs ∧
    ComesTo table cmds fun ptr _ => GivesToSwitch table ptr

/-! ## Two readings go by the same elements -/

section Readings

variable {table : List CmdlineEntry} {cmds : List CString} {occs : List Occurrence}

theorem ReadsElement.taken_unique {ptr : CString} {taken taken' : List CString}
    {occs occs' : List Occurrence} {next : Option CString} (h : ReadsElement table ptr taken occs)
    (h' : ReadsElement table ptr taken' occs') (hnext : ∀ v ∈ taken.head?, next = some v)
    (hnext' : ∀ v ∈ taken'.head?, next = some v) : taken = taken' := by
  have hext : Extends table table := ⟨[], by rw [List.append_nil]; exact SameOptions.refl table⟩
  have hsame := (h.parse hext hnext).symm.trans (h'.parse hext hnext')
  have hconsumed : consumedBy taken = consumedBy taken' := (Prod.mk.inj (Except.ok.inj hsame)).2
  rcases h.taken_cases with rfl | ⟨v, rfl⟩
  · rcases h'.taken_cases with rfl | ⟨v', rfl⟩
    · rfl
    · cases hconsumed
  · rcases h'.taken_cases with rfl | ⟨v', rfl⟩
    · cases hconsumed
    · rw [Option.some.inj ((hnext v rfl).symm.trans (hnext' v' rfl))]

theorem ComesTo.behind {ptr : CString} {taken : List CString} {occs : List Occurrence}
    {Q : CString → List CString → Prop} (helement : ReadsElement table ptr taken occs)
    (h : ComesTo table cmds Q) : ComesTo table (ptr :: (taken ++ cmds)) Q := by
  obtain ⟨pre, ptr', post, occs', rfl, hpre, hQ⟩ := h
  refine ⟨ptr :: (taken ++ pre), ptr', post, occs ++ occs', ?_, .cons helement hpre, hQ⟩
  rw [List.cons_append, List.append_assoc]

theorem Reads.accounts (h : Reads table cmds occs)
    (hnot : ¬ ComesTo table cmds fun ptr _ => GivesToSwitch table ptr) :
    Accounts table cmds occs := by
  induction h with
  | nil => exact .nil
  | @cons ptr taken cmds occs occs' helement hrest ih =>
      have hgives : ¬ GivesToSwitch table ptr := fun hgives =>
        hnot ⟨[], ptr, taken ++ cmds, [], rfl, .nil, hgives⟩
      exact .cons helement hgives (ih fun hcomes => hnot (hcomes.behind helement))

theorem Accounts.not_comesTo (h : Accounts table cmds occs) :
    ¬ ComesTo table cmds fun ptr _ => GivesToSwitch table ptr := by
  induction h with
  | nil =>
      rintro ⟨pre, ptr, post, occs, hcmds, -, -⟩
      simp at hcmds
  | @cons ptr taken cmds occs occs' helement hgives hrest ih =>
      rintro ⟨pre, ptr', post, occs₀, hcmds, hpre, hQ⟩
      cases hpre with
      | nil =>
          obtain ⟨rfl, -⟩ := List.cons.inj hcmds
          exact hgives hQ
      | @cons first taken' pre occs₁ occs₂ helement' hpre =>
          rw [List.cons_append, List.append_assoc] at hcmds
          obtain ⟨rfl, htail⟩ := List.cons.inj hcmds
          have hnext := helement.head?_append cmds
          rw [htail] at hnext
          obtain rfl := helement.taken_unique helement' hnext
            (helement'.head?_append (pre ++ ptr' :: post))
          exact ih ⟨pre, ptr', post, occs₂, List.append_cancel_left htail, hpre, hQ⟩

theorem Found.place_lt {test : CmdlineEntry → Bool} {i : ℕ} {takesArgs : Bool}
    (h : Found (findEntry test table) i takesArgs) : i < table.length := by
  obtain ⟨item, hfound, -⟩ := h.exists_item
  exact (List.getElem?_eq_some_iff.mp (getElem?_of_findEntry hfound)).1

theorem ReadsLetters.places {str : List UInt8} {taken : List CString}
    (h : ReadsLetters table str taken occs) : ∀ occ ∈ occs, occ.place < table.length := by
  induction h with
  | switch hfound => simpa using hfound.place_lt
  | bundled hfound hrest ih => exact List.forall_mem_cons.mpr ⟨hfound.place_lt, ih⟩
  | equals hfound hv => simpa using hfound.place_lt
  | joined hfound hv hhead => simpa using hfound.place_lt
  | next hfound => simpa using hfound.place_lt

theorem ReadsElement.places {ptr : CString} {taken : List CString}
    (h : ReadsElement table ptr taken occs) : ∀ occ ∈ occs, occ.place < table.length := by
  cases h with
  | letters hptr hdash hletters => exact hletters.places
  | longSwitch hname hfound => simpa using hfound.place_lt
  | longIgnored hname hfound => simpa using hfound.place_lt
  | longNext hname hfound => simpa using hfound.place_lt
  | longEquals hname hfound hv => simpa using hfound.place_lt
  | positional hptr hfind =>
      have hlt := (List.getElem?_eq_some_iff.mp (getElem?_of_findEntry hfind)).1
      simpa using hlt

theorem Reads.places (h : Reads table cmds occs) : ∀ occ ∈ occs, occ.place < table.length := by
  induction h with
  | nil => exact nofun
  | cons helement hrest ih => exact List.forall_mem_append.mpr ⟨helement.places, ih⟩

end Readings

/-! ## What is required -/

section Required

variable {table vars : List CmdlineEntry} {env argv : List CString} {occs : List Occurrence}

theorem reqd_foldl_apply (item : CmdlineEntry) :
    (occs.foldl (fun item occ => occ.apply item) item).type.reqd = item.type.reqd :=
  congrArg (fun e => e.type.reqd) (@plain_foldl_apply item occs)

theorem seen_at_iff (i : ℕ) (item : CmdlineEntry) :
    ((occs.filter fun occ => occ.place = i).foldl (fun item occ => occ.apply item) item).type.seen =
        true ↔ item.type.seen = true ∨ ∃ occ ∈ occs, occ.place = i := by
  rw [seen_foldl_apply]
  simp [List.filter_eq_nil_iff]

theorem stored_foldl (i : ℕ) (opt : CmdlineEntry) :
    Stored occs i opt
      ((occs.filter fun occ => occ.place = i).foldl (fun item occ => occ.apply item) opt) := by
  refine ⟨seen_at_iff i opt, fun hlist => contents_foldl_list _ hlist, ?_, ?_⟩
  · intro hlist v hlast
    rw [contents_foldl_scalar _ hlist]
    unfold given at hlast
    rw [hlast]
    rfl
  · intro hnone
    unfold given at hnone
    by_cases hlist : opt.type.list = true
    · rw [contents_foldl_list _ hlist, hnone, List.flatMap_nil, List.append_nil]
    · rw [contents_foldl_scalar _ (Bool.eq_false_iff.mpr hlist), hnone]
      rfl

/-- What occurs is in the final values of its options. -/
theorem stored_record (i : ℕ) (opt : CmdlineEntry) (hopt : table[i]? = some opt) :
    ∃ item, (occs.foldl record (table ++ vars))[i]? = some item ∧ Stored occs i opt item := by
  obtain ⟨hlt, -⟩ := List.getElem?_eq_some_iff.mp hopt
  refine ⟨_, ?_, stored_foldl i opt⟩
  rw [getElem?_foldl_record, List.getElem?_append_left hlt, hopt, Option.map_some]

/-- The check behind the loop. -/
theorem missing_iff (hvars : ∀ item ∈ vars, IsVariable item) :
    (occs.foldl record (table ++ vars)).any (fun opt => opt.type.reqd && !opt.type.seen) = false ↔
      RequiredOccur table occs := by
  rw [List.any_eq_false]
  constructor
  · intro hall i opt hopt hreqd
    obtain ⟨hlt, -⟩ := List.getElem?_eq_some_iff.mp hopt
    have hfinal := getElem?_foldl_record (table ++ vars) occs i
    rw [List.getElem?_append_left hlt, hopt, Option.map_some] at hfinal
    have hitem := hall _ (List.mem_of_getElem? hfinal)
    rw [reqd_foldl_apply, hreqd, Bool.true_and, Bool.not_eq_true', Bool.not_eq_false] at hitem
    exact (seen_at_iff i opt).mp hitem
  · intro hrequired item hitem
    obtain ⟨i, hi⟩ := List.mem_iff_getElem?.mp hitem
    rw [getElem?_foldl_record] at hi
    obtain ⟨opt, hopt, rfl⟩ := Option.map_eq_some_iff.mp hi
    rw [reqd_foldl_apply]
    by_cases hlt : i < table.length
    · rw [List.getElem?_append_left hlt] at hopt
      cases hreqd : opt.type.reqd with
      | false => simp
      | true =>
          have hseen := (seen_at_iff i opt).mpr (hrequired i opt hopt hreqd)
          simp [hseen]
    · rw [List.getElem?_append_right (Nat.not_lt.mp hlt)] at hopt
      rw [(hvars opt (List.mem_of_getElem? hopt)).type]
      simp

theorem parseCmdline_ok_iff (hstore : storeEnvironment env = .ok vars)
    (hvars : ∀ item ∈ vars, IsVariable item) (hreads : Reads table argv.tail occs) :
    parseCmdline table env argv = .ok (occs.foldl record (table ++ vars)) ↔
      RequiredOccur table occs := by
  have hext : Extends table (table ++ vars) := ⟨vars, SameOptions.refl _⟩
  rw [parseCmdline, hstore, ok_bind, hreads.parse hext, ok_bind]
  dsimp only
  rw [← missing_iff hvars]
  cases (occs.foldl record (table ++ vars)).any fun opt => opt.type.reqd && !opt.type.seen with
  | false => simp
  | true => simp

end Required

/-- The last element does not take one behind it. -/
theorem not_skip {args args' : List CmdlineEntry} {cmds : List CString} {skip skip' : Bool}
    (hskip : skip = true → cmds ≠ [])
    (hrun : parseElements none args skip cmds = .ok (args', skip')) : skip' = false := by
  induction cmds generalizing args skip with
  | nil =>
      cases skip with
      | true => exact absurd rfl (hskip rfl)
      | false =>
          cases hrun
          rfl
  | cons ptr cmds ih =>
      cases skip with
      | true => exact ih (fun h => by cases h) hrun
      | false =>
          obtain ⟨⟨mid, consumed⟩, helement, hrest⟩ := bind_eq_ok.mp hrun
          cases consumed with
          | nothing => cases hrest
          | element => exact ih (fun h => by cases h) hrest
          | withNext =>
              refine ih (fun _ hnil => ?_) hrest
              subst hnil
              rcases readAs_parseElement (SameOptions.refl args) helement with
                hnothing | ⟨taken, occs, hreads, -, hconsumed, htaken⟩
              · cases hnothing
              · rcases hreads.taken_cases with rfl | ⟨v, rfl⟩
                · cases hconsumed
                · cases htaken v List.mem_cons_self

/-- What is accepted has been read. -/
theorem reads_of_parseCmdline {table args : List CmdlineEntry} {env argv : List CString}
    (hrun : parseCmdline table env argv = .ok args) :
    ∃ vars occs, storeEnvironment env = .ok vars ∧ Reads table argv.tail occs ∧
      RequiredOccur table occs ∧ args = occs.foldl record (table ++ vars) := by
  obtain ⟨vars, opts, hstore, hopts, -⟩ := exists_opts_of_parseCmdline hrun
  obtain ⟨_, hnone, hrest⟩ := bind_eq_ok.mp hopts
  obtain rfl := Except.ok.inj hnone
  obtain ⟨⟨args', skip⟩, hparse, -⟩ := bind_eq_ok.mp hrest
  rw [List.append_nil] at hparse
  obtain rfl := not_skip (fun h => by cases h) hparse
  obtain ⟨occs, hreads⟩ := exists_reads (SameOptions.refl table) hparse
  obtain ⟨vars', hstore', hvars⟩ := storeEnvironment_spec (shortEntries_of_ok hstore)
  obtain rfl := Except.ok.inj (hstore'.symm.trans hstore)
  have hext : Extends table (table ++ vars') := ⟨vars', SameOptions.refl _⟩
  have hargs : args = occs.foldl record (table ++ vars') := by
    have hcheck := hrun
    rw [parseCmdline, hstore, ok_bind, hreads.parse hext, ok_bind] at hcheck
    dsimp only at hcheck
    split at hcheck
    · cases hcheck
    · exact (Except.ok.inj hcheck).symm
  exact ⟨vars', occs, hstore, hreads,
    (parseCmdline_ok_iff hstore hvars hreads).mp (hargs ▸ hrun), hargs⟩

/-- Nothing is dropped unless a text is given to an option that takes none, in
arguments that are accepted otherwise, or a lone dash is walked over its terminator. -/
theorem all_accounted_iff (table : List CmdlineEntry) (env argv : List CString) :
    Accounted table env argv ↔ ¬ ReadsBehind table env argv ∧
      (ShortEntries env → ¬ GivesAway table argv.tail) := by
  constructor
  · rintro ⟨hdetermined, hstored⟩
    refine ⟨hdetermined, ?_⟩
    rintro hshort ⟨occs, hreads, hrequired, hcomes⟩
    obtain ⟨vars, hstore, hvars⟩ := storeEnvironment_spec hshort
    have hrun := (parseCmdline_ok_iff hstore hvars hreads).mpr hrequired
    obtain ⟨occs', haccounts, -⟩ := hstored _ hrun
    exact haccounts.not_comesTo hcomes
  · rintro ⟨hdetermined, hnot⟩
    refine ⟨hdetermined, ?_⟩
    intro args hrun
    obtain ⟨vars, occs, hstore, hreads, hrequired, rfl⟩ := reads_of_parseCmdline hrun
    refine ⟨occs, hreads.accounts fun hcomes => ?_, hreads.places, stored_record⟩
    exact hnot (shortEntries_of_ok hstore) ⟨occs, hreads, hrequired, hcomes⟩

/-- `--sw=x` is accepted for the switch `--sw`. -/
theorem not_accounted_long :
    ¬ Accounted
      [addCmdline 115 (some (CString.read [115, 119])) (some (CString.read [115])) none none
        { switch := true }]
      [] [CString.read [116], CString.read [45, 45, 115, 119, 61, 120]] := by
  rintro ⟨-, hstored⟩
  obtain ⟨occs, haccounts, -⟩ := hstored _ rfl
  apply haccounts.not_comesTo
  have hname : 61 ∉ (CString.read [115, 119]).bytes := by decide
  have hptr : CString.read [45, 45, 115, 119, 61, 120] =
      dashDash ((CString.read [115, 119]).append (equalsText (CString.read [120]))) := rfl
  exact ⟨[], CString.read [45, 45, 115, 119, 61, 120], [], [], rfl, .nil,
    .longName hname hptr ⟨_, rfl, rfl, rfl⟩⟩

end SimpleVm.Cmdline
