import SimpleVm.Common.CmdlineSpelling

/-!
# Reading the command line

What the arguments say, apart from how they are parsed: which options occur
in them, in order, and with which values. An element is read together with
the one behind it where that one is its value. Parsing records exactly the
occurrences of the reading, and it returns on nothing else.
-/

namespace SimpleVm.Cmdline

/-- An option, by its place in the table, and the value that is given to it. -/
structure Occurrence where
  place : ℕ
  value : Option CString
  deriving DecidableEq

def Occurrence.apply (occ : Occurrence) (item : CmdlineEntry) : CmdlineEntry :=
  match occ.value with
  | none => setSeen item
  | some v => addCmdlineArg (setSeen item) v

def record (args : List CmdlineEntry) (occ : Occurrence) : List CmdlineEntry :=
  args.modify occ.place occ.apply

/-- The entry at place `i` is found, has no callback, and takes arguments or not. -/
structure Found (found : Option (ℕ × CmdlineEntry)) (i : ℕ) (takesArgs : Bool) : Prop where
  exists_item : ∃ item, found = some (i, item) ∧ item.cb = none ∧ item.type.args = takesArgs

/-- The letters behind a dash, the elements they take from behind, and what occurs. -/
inductive ReadsLetters (table : List CmdlineEntry) :
    List UInt8 → List CString → List Occurrence → Prop
  | switch {b : UInt8} {i : ℕ} (hfound : Found (getShortOpt table (charInt b)) i false) :
      ReadsLetters table [b] [] [⟨i, none⟩]
  | bundled {b : UInt8} {i : ℕ} {str : List UInt8} {taken : List CString} {occs : List Occurrence}
      (hfound : Found (getShortOpt table (charInt b)) i false)
      (hrest : ReadsLetters table str taken occs) :
      ReadsLetters table (b :: str) taken (⟨i, none⟩ :: occs)
  | equals {b : UInt8} {i : ℕ} {v : CString}
      (hfound : Found (getShortOpt table (charInt b)) i true) (hv : v.bytes ≠ []) :
      ReadsLetters table (b :: 61 :: v.bytes) [] [⟨i, some v⟩]
  | joined {b : UInt8} {i : ℕ} {v : CString}
      (hfound : Found (getShortOpt table (charInt b)) i true) (hv : v.bytes ≠ [])
      (hhead : v.bytes.head? = some 61 → v.bytes = [61]) :
      ReadsLetters table (b :: v.bytes) [] [⟨i, some v⟩]
  | next {b : UInt8} {i : ℕ} {v : CString}
      (hfound : Found (getShortOpt table (charInt b)) i true) :
      ReadsLetters table [b] [v] [⟨i, some v⟩]

inductive ReadsElement (table : List CmdlineEntry) :
    CString → List CString → List Occurrence → Prop
  | letters {ptr : CString} {str : List UInt8} {taken : List CString} {occs : List Occurrence}
      (hptr : ptr.bytes = 45 :: str) (hdash : str.head? ≠ some 45)
      (h : ReadsLetters table str taken occs) : ReadsElement table ptr taken occs
  | longSwitch {name : CString} {i : ℕ} (hname : 61 ∉ name.bytes)
      (hfound : Found (getLongOpt table name) i false) :
      ReadsElement table (dashDash name) [] [⟨i, none⟩]
  /-- A text behind the long name of a switch is not looked at. -/
  | longIgnored {name text : CString} {i : ℕ} (hname : 61 ∉ name.bytes)
      (hfound : Found (getLongOpt table name) i false) :
      ReadsElement table (dashDash (name.append (equalsText text))) [] [⟨i, none⟩]
  | longNext {name v : CString} {i : ℕ} (hname : 61 ∉ name.bytes)
      (hfound : Found (getLongOpt table name) i true) :
      ReadsElement table (dashDash name) [v] [⟨i, some v⟩]
  | longEquals {name v : CString} {i : ℕ} (hname : 61 ∉ name.bytes)
      (hfound : Found (getLongOpt table name) i true) (hv : v.bytes ≠ []) :
      ReadsElement table (dashDash (name.append (equalsText v))) [] [⟨i, some v⟩]
  | positional {ptr : CString} {i : ℕ} {item : CmdlineEntry} (hptr : ptr.bytes.head? ≠ some 45)
      (hfind : findEntry (fun item => item.type.anon) table = some (i, item)) :
      ReadsElement table ptr [] [⟨i, some ptr⟩]

inductive Reads (table : List CmdlineEntry) : List CString → List Occurrence → Prop
  | nil : Reads table [] []
  | cons {ptr : CString} {taken cmds : List CString} {occs occs' : List Occurrence}
      (h : ReadsElement table ptr taken occs) (hrest : Reads table cmds occs') :
      Reads table (ptr :: (taken ++ cmds)) (occs ++ occs')

/-! ## Recording keeps the options -/

theorem SameOptions.symm {args args' : List CmdlineEntry} (h : SameOptions args args') :
    SameOptions args' args := Eq.symm h

@[simp] theorem plain_apply (occ : Occurrence) (item : CmdlineEntry) :
    plain (occ.apply item) = plain item := by
  unfold Occurrence.apply
  cases occ.value with
  | none => simp
  | some v => simp

theorem addCmdlineArg_setSeen (item : CmdlineEntry) (v : CString) :
    addCmdlineArg (setSeen item) v = setSeen (addCmdlineArg item v) := by
  unfold addCmdlineArg setSeen
  cases hlist : item.type.list with
  | true => cases item.value <;> rfl
  | false => cases item.value <;> rfl

theorem set_eq_modify {args : List CmdlineEntry} {i : ℕ} {item : CmdlineEntry}
    (hget : args[i]? = some item) (f : CmdlineEntry → CmdlineEntry) :
    args.set i (f item) = args.modify i f := by
  apply List.ext_getElem?
  intro j
  rw [List.getElem?_modify, List.getElem?_set]
  by_cases hij : i = j
  · subst hij
    obtain ⟨hlt, rfl⟩ := List.getElem?_eq_some_iff.mp hget
    simp [hlt]
  · simp [hij]

theorem sameOptions_record (args : List CmdlineEntry) (occ : Occurrence) :
    SameOptions args (record args occ) := by
  unfold record
  cases hget : args[occ.place]? with
  | none =>
      rw [List.modify_eq_self (List.getElem?_eq_none_iff.mp hget)]
      exact SameOptions.refl args
  | some item =>
      rw [← set_eq_modify hget]
      exact SameOptions.set hget (plain_apply occ item)

theorem sameOptions_foldl (args : List CmdlineEntry) (occs : List Occurrence) :
    SameOptions args (occs.foldl record args) := by
  induction occs generalizing args with
  | nil => exact SameOptions.refl args
  | cons occ occs ih => exact (sameOptions_record args occ).trans (ih _)

/-! ## Parsing follows the reading -/

/-- Every entry of the table is at the same place of the arguments, and is found there. -/
def Extends (table args : List CmdlineEntry) : Prop :=
  ∃ vars, SameOptions (table ++ vars) args

theorem Extends.of_sameOptions {table args args' : List CmdlineEntry} (h : Extends table args)
    (hsame : SameOptions args args') : Extends table args' := by
  obtain ⟨vars, hvars⟩ := h
  exact ⟨vars, hvars.trans hsame⟩

theorem findEntry_append {test : CmdlineEntry → Bool} {table : List CmdlineEntry} {i : ℕ}
    {item : CmdlineEntry} (hfind : findEntry test table = some (i, item))
    (vars : List CmdlineEntry) : findEntry test (table ++ vars) = some (i, item) := by
  induction table generalizing i with
  | nil => cases hfind
  | cons first table ih =>
      rw [List.cons_append, findEntry]
      rw [findEntry] at hfind
      by_cases htest : test first = true
      · rw [if_pos htest] at hfind ⊢
        exact hfind
      · rw [if_neg htest] at hfind ⊢
        obtain ⟨⟨j, found⟩, hfound, heq⟩ := Option.map_eq_some_iff.mp hfind
        obtain ⟨rfl, rfl⟩ : j + 1 = i ∧ found = item := by simpa using heq
        rw [ih hfound, Option.map_some]

section Follows

variable {table args : List CmdlineEntry} (hext : Extends table args)

include hext

theorem Extends.findEntry {test : CmdlineEntry → Bool}
    (htest : ∀ item, test (plain item) = test item) {i : ℕ} {item : CmdlineEntry}
    (hfind : Cmdline.findEntry test table = some (i, item)) :
    ∃ item', Cmdline.findEntry test args = some (i, item') ∧ plain item' = plain item := by
  obtain ⟨vars, hsame⟩ := hext
  exact findEntry_congr htest hsame (findEntry_append hfind vars)

theorem Extends.found {test : CmdlineEntry → Bool}
    (htest : ∀ item, test (plain item) = test item) {i : ℕ} {takesArgs : Bool}
    (hfound : Found (Cmdline.findEntry test table) i takesArgs) :
    ∃ item, Cmdline.findEntry test args = some (i, item) ∧ args[i]? = some item ∧
      item.cb = none ∧ item.type.args = takesArgs := by
  obtain ⟨item, hfind, hcb, hargs⟩ := hfound
  obtain ⟨item', hfind', hplain⟩ := hext.findEntry htest hfind
  exact ⟨item', hfind', getElem?_of_findEntry hfind', (cb_eq_of_plain hplain).trans hcb,
    (args_eq_of_plain hplain).trans hargs⟩

end Follows

/-- How much the loop moves on behind an element. -/
def consumedBy (taken : List CString) : Consumed :=
  if taken = [] then .element else .withNext

theorem shortArgument_eq {v : CString} (hv : v.bytes ≠ [])
    (hhead : v.bytes.head? = some 61 → v.bytes = [61]) : shortArgument v.bytes = some v := by
  by_cases heq : v.bytes.head? = some 61
  · have hbytes := hhead heq
    have hread := CString.read_bytes v
    rw [hbytes] at hread ⊢
    rw [shortArgument, hread]
    · simp
    · simp
  · exact shortArgument_joined hv heq

theorem ReadsLetters.ne_nil {table : List CmdlineEntry} {str : List UInt8} {taken : List CString}
    {occs : List Occurrence} (h : ReadsLetters table str taken occs) : str ≠ [] := by
  cases h <;> exact List.cons_ne_nil _ _

theorem ReadsLetters.parse {table args : List CmdlineEntry} {str : List UInt8}
    {taken : List CString} {occs : List Occurrence} (h : ReadsLetters table str taken occs)
    (hext : Extends table args) {next : Option CString}
    (hnext : ∀ v ∈ taken.head?, next = some v) :
    parseShortOption next args str = .ok (occs.foldl record args, consumedBy taken) := by
  induction h generalizing args with
  | switch hfound =>
      obtain ⟨item, hfind, hget, hcb, hargs⟩ := hext.found (fun _ => rfl) hfound
      have hseen : (setSeen item).type.args = false := hargs
      simp only [parseShortOption, getShortOpt, hfind, hcb, hseen, Bool.false_eq_true, if_false,
        if_true, set_eq_modify hget setSeen]
      rfl
  | bundled hfound hrest ih =>
      obtain ⟨item, hfind, hget, hcb, hargs⟩ := hext.found (fun _ => rfl) hfound
      have hseen : (setSeen item).type.args = false := hargs
      simp only [parseShortOption, getShortOpt, hfind, hcb, hseen, Bool.false_eq_true, if_false,
        hrest.ne_nil, set_eq_modify hget setSeen]
      exact ih (hext.of_sameOptions (sameOptions_record args ⟨_, none⟩)) hnext
  | equals hfound hv =>
      obtain ⟨item, hfind, hget, hcb, hargs⟩ := hext.found (fun _ => rfl) hfound
      have hseen : (setSeen item).type.args = true := hargs
      have harg := shortArgument_equals hv
      simp only [equalsText] at harg
      simp only [parseShortOption, getShortOpt, hfind, hcb, hseen, if_true, harg]
      rw [set_eq_modify hget fun item => addCmdlineArg (setSeen item) _]
      rfl
  | joined hfound hv hhead =>
      obtain ⟨item, hfind, hget, hcb, hargs⟩ := hext.found (fun _ => rfl) hfound
      have hseen : (setSeen item).type.args = true := hargs
      simp only [parseShortOption, getShortOpt, hfind, hcb, hseen, if_true,
        shortArgument_eq hv hhead]
      rw [set_eq_modify hget fun item => addCmdlineArg (setSeen item) _]
      rfl
  | next hfound =>
      obtain ⟨item, hfind, hget, hcb, hargs⟩ := hext.found (fun _ => rfl) hfound
      have hseen : (setSeen item).type.args = true := hargs
      simp only [parseShortOption, getShortOpt, hfind, hcb, hseen, if_true, shortArgument,
        hnext _ rfl]
      rw [set_eq_modify hget fun item => addCmdlineArg (setSeen item) _]
      rfl

theorem parseElement_letters {ptr : CString} {str : List UInt8} (hptr : ptr.bytes = 45 :: str)
    (hdash : str.head? ≠ some 45) (next : Option CString) (args : List CmdlineEntry) :
    parseElement next args ptr = parseShortOption next args str := by
  unfold parseElement
  rw [hptr]
  split
  · rename_i heq
    obtain ⟨-, rfl⟩ := List.cons.inj heq
    exact (hdash rfl).elim
  · rename_i heq
    rw [(List.cons.inj heq).2]
  · rename_i hshort
    exact (hshort str rfl).elim

theorem parseElement_positional {ptr : CString} (hptr : ptr.bytes.head? ≠ some 45)
    (next : Option CString) (args : List CmdlineEntry) :
    parseElement next args ptr = parseListItem args ptr := by
  unfold parseElement
  split
  · rename_i heq
    simp [heq] at hptr
  · rename_i heq
    simp [heq] at hptr
  · rfl

theorem dashDash_name {name : CString} (hname : 61 ∉ name.bytes) :
    name.bytes.takeWhile (· ≠ 61) = name.bytes ∧ name.bytes.dropWhile (· ≠ 61) = [] := by
  have hall : ∀ b ∈ name.bytes, decide (b ≠ 61) = true := by
    intro b hb
    rw [decide_eq_true_eq]
    rintro rfl
    exact hname hb
  exact ⟨List.takeWhile_eq_self_iff.mpr hall, List.dropWhile_eq_nil_iff.mpr hall⟩

theorem ReadsElement.parse {table args : List CmdlineEntry} {ptr : CString}
    {taken : List CString} {occs : List Occurrence} (h : ReadsElement table ptr taken occs)
    (hext : Extends table args) {next : Option CString}
    (hnext : ∀ v ∈ taken.head?, next = some v) :
    parseElement next args ptr = .ok (occs.foldl record args, consumedBy taken) := by
  cases h with
  | letters hptr hdash hletters =>
      rw [parseElement_letters hptr hdash]
      exact hletters.parse hext hnext
  | longSwitch hname hfound =>
      obtain ⟨item, hfind, hget, hcb, hargs⟩ := hext.found (fun _ => rfl) hfound
      have hseen : (setSeen item).type.args = false := hargs
      rw [parseElement_dashDash, parseLongOption, (dashDash_name hname).1, CString.read_bytes]
      simp only [getLongOpt, hfind, hcb, hseen, Bool.false_eq_true, if_false,
        set_eq_modify hget setSeen]
      rfl
  | @longIgnored name text i hname hfound =>
      obtain ⟨item, hfind, hget, hcb, hargs⟩ := hext.found (fun _ => rfl) hfound
      have hseen : (setSeen item).type.args = false := hargs
      have hbytes : (name.append (equalsText text)).bytes = name.bytes ++ 61 :: text.bytes := rfl
      rw [parseElement_dashDash, parseLongOption, hbytes, (takeWhile_longName hname _).1,
        CString.read_bytes]
      simp only [getLongOpt, hfind, hcb, hseen, Bool.false_eq_true, if_false,
        set_eq_modify hget setSeen]
      rfl
  | longNext hname hfound =>
      obtain ⟨item, hfind, hget, hcb, hargs⟩ := hext.found (fun _ => rfl) hfound
      have hseen : (setSeen item).type.args = true := hargs
      obtain ⟨htake, hdrop⟩ := dashDash_name hname
      rw [parseElement_dashDash, parseLongOption, htake, hdrop, CString.read_bytes]
      simp only [getLongOpt, hfind, hcb, hseen, if_true, hnext _ rfl]
      rw [set_eq_modify hget fun item => addCmdlineArg (setSeen item) _]
      rfl
  | @longEquals name v i hname hfound hv =>
      obtain ⟨item, hfind, hget, hcb, hargs⟩ := hext.found (fun _ => rfl) hfound
      have hseen : (setSeen item).type.args = true := hargs
      have hbytes : (name.append (equalsText v)).bytes = name.bytes ++ 61 :: v.bytes := rfl
      obtain ⟨htake, hdrop⟩ := takeWhile_longName hname v.bytes
      rw [parseElement_dashDash, parseLongOption, hbytes, htake, hdrop, CString.read_bytes]
      obtain ⟨b, str, hcons⟩ := List.exists_cons_of_ne_nil hv
      have hread := CString.read_bytes v
      rw [hcons] at hread ⊢
      simp only [getLongOpt, hfind, hcb, hseen, if_true, hread]
      rw [set_eq_modify hget fun item => addCmdlineArg (setSeen item) _]
      rfl
  | positional hptr hfind =>
      obtain ⟨item, hfind', -⟩ := hext.findEntry (fun _ => rfl) hfind
      rw [parseElement_positional hptr, parseListItem, hfind']
      simp only [← addCmdlineArg_setSeen]
      rw [set_eq_modify (getElem?_of_findEntry hfind') fun item => addCmdlineArg (setSeen item) _]
      rfl

theorem ReadsElement.taken_cases {table : List CmdlineEntry} {ptr : CString}
    {taken : List CString} {occs : List Occurrence} (h : ReadsElement table ptr taken occs) :
    taken = [] ∨ ∃ v, taken = [v] := by
  cases h with
  | letters hptr hdash hletters =>
      clear hptr hdash
      induction hletters with
      | switch hfound => exact .inl rfl
      | bundled hfound hrest ih => exact ih
      | equals hfound hv => exact .inl rfl
      | joined hfound hv hhead => exact .inl rfl
      | next hfound => exact .inr ⟨_, rfl⟩
  | longSwitch hname hfound => exact .inl rfl
  | longIgnored hname hfound => exact .inl rfl
  | longNext hname hfound => exact .inr ⟨_, rfl⟩
  | longEquals hname hfound hv => exact .inl rfl
  | positional hptr hfind => exact .inl rfl

/-- Whatever stands behind: the elements of a reading are parsed to their occurrences. -/
theorem Reads.parse {table args : List CmdlineEntry} {cmds : List CString}
    {occs : List Occurrence} (h : Reads table cmds occs) (hext : Extends table args)
    (next : Option CString) :
    parseElements next args false cmds = .ok (occs.foldl record args, false) := by
  induction h generalizing args with
  | nil => rfl
  | @cons ptr taken cmds occs occs' helement hrest ih =>
      have hext' := hext.of_sameOptions (sameOptions_foldl args occs)
      rw [List.foldl_append]
      rcases helement.taken_cases with rfl | ⟨v, rfl⟩
      · rw [List.nil_append, parseElements, helement.parse hext (by simp)]
        exact ih hext'
      · rw [parseElements, helement.parse hext (by simp)]
        exact ih hext'

/-! ## What is parsed has been read -/

theorem bytes_read {str : List UInt8} (hstr : 0 ∉ str) : (CString.read str).bytes = str := by
  apply List.takeWhile_eq_self_iff.mpr
  intro b hb
  rw [decide_eq_true_eq]
  rintro rfl
  exact hstr hb

theorem shortArgument_cases {str : List UInt8} (hstr : 0 ∉ str) :
    (str = [] ∧ shortArgument str = none) ∨
      ∃ v, shortArgument str = some v ∧ v.bytes ≠ [] ∧
        (str = 61 :: v.bytes ∨ (str = v.bytes ∧ (v.bytes.head? = some 61 → v.bytes = [61]))) := by
  match str with
  | [] => exact .inl ⟨rfl, rfl⟩
  | [b] =>
      have hbytes := bytes_read hstr
      refine .inr ⟨CString.read [b], ?_, by simp [hbytes], .inr ⟨hbytes.symm, ?_⟩⟩
      · rw [shortArgument]
        · simp
        · simp
      · rw [hbytes]
        simp
  | b :: b' :: rest =>
      have htail : 0 ∉ b' :: rest := fun h => hstr (List.mem_cons_of_mem b h)
      by_cases hb : b = 61
      · subst hb
        have hbytes := bytes_read htail
        exact .inr ⟨CString.read (b' :: rest), rfl, by simp [hbytes], .inl (by rw [hbytes])⟩
      · have hbytes := bytes_read hstr
        refine .inr ⟨CString.read (b :: b' :: rest), ?_, by simp [hbytes], .inr ⟨hbytes.symm, ?_⟩⟩
        · rw [shortArgument]
          · simp
          · rintro c cs heq
            exact hb (List.cons.inj heq).1
        · rw [hbytes]
          intro hhead
          exact (hb (Option.some.inj hhead)).elim

theorem found_of_findEntry {table args : List CmdlineEntry} (hsame : SameOptions table args)
    {test : CmdlineEntry → Bool} (htest : ∀ item, test (plain item) = test item) {i : ℕ}
    {item : CmdlineEntry} (hfind : findEntry test args = some (i, item)) (hcb : item.cb = none) :
    Found (findEntry test table) i item.type.args := by
  obtain ⟨item', hfind', hplain⟩ := findEntry_congr htest hsame.symm hfind
  exact ⟨item', hfind', (cb_eq_of_plain hplain).trans hcb, args_eq_of_plain hplain⟩

/-- The text `str` has been read as these occurrences, with the element behind where needed. -/
def ReadAs (reads : List CString → List Occurrence → Prop) (next : Option CString)
    (args args' : List CmdlineEntry) (consumed : Consumed) : Prop :=
  consumed = .nothing ∨ ∃ taken occs, reads taken occs ∧ args' = occs.foldl record args ∧
    consumed = consumedBy taken ∧ ∀ v ∈ taken, next = some v

theorem readAs_parseShortOption {table args args' : List CmdlineEntry}
    (hsame : SameOptions table args) {next : Option CString} {str : List UInt8} (hstr : 0 ∉ str)
    {consumed : Consumed} (hrun : parseShortOption next args str = .ok (args', consumed)) :
    ReadAs (ReadsLetters table str) next args args' consumed := by
  induction str generalizing args with
  | nil =>
      rw [parseShortOption] at hrun
      split at hrun
      · cases hrun
      · split at hrun <;> cases hrun
        exact .inl rfl
  | cons b str ih =>
      have htail : 0 ∉ str := fun h => hstr (List.mem_cons_of_mem b h)
      rw [parseShortOption] at hrun
      split at hrun
      · cases hrun
      · rename_i i item hfind
        have hget := getElem?_of_findEntry hfind
        split at hrun
        · cases hrun
        · cases hrun
          exact .inl rfl
        · rename_i hcb
          have hfound : Found (getShortOpt table (charInt b)) i item.type.args :=
            found_of_findEntry hsame (fun _ => rfl) hfind hcb
          dsimp only at hrun
          split at hrun
          · rename_i hargs
            rw [show item.type.args = true from hargs] at hfound
            right
            rcases shortArgument_cases htail with ⟨rfl, hnone⟩ | ⟨v, hsome, hv, hcases⟩
            · rw [hnone] at hrun
              dsimp only at hrun
              split at hrun
              · rename_i v
                cases hrun
                refine ⟨[v], [⟨i, some v⟩], .next hfound, ?_, rfl, by simp⟩
                rw [set_eq_modify hget fun item => addCmdlineArg (setSeen item) v]
                rfl
              · cases hrun
            · rw [hsome] at hrun
              cases hrun
              refine ⟨[], [⟨i, some v⟩], ?_, ?_, rfl, by simp⟩
              · rcases hcases with rfl | ⟨rfl, hhead⟩
                · exact .equals hfound hv
                · exact .joined hfound hv hhead
              · rw [set_eq_modify hget fun item => addCmdlineArg (setSeen item) v]
                rfl
          · rename_i hargs
            rw [show item.type.args = false from Bool.eq_false_iff.mpr hargs] at hfound
            have hrecord : args.set i (setSeen item) = record args ⟨i, none⟩ :=
              set_eq_modify hget setSeen
            split at hrun
            · rename_i hnil
              cases hrun
              subst hnil
              exact .inr ⟨[], [⟨i, none⟩], .switch hfound, hrecord, rfl, by simp⟩
            · rw [hrecord] at hrun
              rcases ih (hsame.trans (sameOptions_record args _)) htail hrun with
                hnothing | ⟨taken, occs, hreads, hargs', hconsumed, htaken⟩
              · exact .inl hnothing
              · exact .inr ⟨taken, ⟨i, none⟩ :: occs, .bundled hfound hreads, hargs', hconsumed,
                  htaken⟩

/-- A text is a name without `=`, or such a name, `=` and a second text. -/
theorem exists_name (text : CString) :
    ∃ name : CString, 61 ∉ name.bytes ∧
      (text = name ∨ ∃ v, text = name.append (equalsText v)) := by
  have hsplit : text.bytes.takeWhile (· ≠ 61) ++ text.bytes.dropWhile (· ≠ 61) = text.bytes :=
    List.takeWhile_append_dropWhile
  have hnul : 0 ∉ text.bytes.takeWhile (· ≠ 61) :=
    fun h => text.nul_notMem (List.takeWhile_subset _ h)
  refine ⟨⟨_, hnul⟩, fun h => by simpa using List.mem_takeWhile_imp h, ?_⟩
  cases hrest : text.bytes.dropWhile (· ≠ 61) with
  | nil =>
      left
      apply CString.ext
      rw [hrest, List.append_nil] at hsplit
      exact hsplit.symm
  | cons b rest =>
      have hb : b = 61 := by
        have hhead := List.head?_dropWhile_not (fun b => decide (b ≠ (61 : UInt8))) text.bytes
        rw [hrest] at hhead
        simpa using hhead
      have hrestnul : 0 ∉ rest := by
        intro h
        apply text.nul_notMem
        rw [← hsplit, hrest]
        exact List.mem_append_right _ (List.mem_cons_of_mem b h)
      right
      refine ⟨⟨rest, hrestnul⟩, ?_⟩
      apply CString.ext
      rw [hrest, hb] at hsplit
      exact hsplit.symm

theorem readAs_parseLongOption {table args args' : List CmdlineEntry}
    (hsame : SameOptions table args) {next : Option CString} {text : CString}
    {consumed : Consumed} (hrun : parseLongOption next args text.bytes = .ok (args', consumed)) :
    ReadAs (ReadsElement table (dashDash text)) next args args' consumed := by
  obtain ⟨name, hname, htext⟩ := exists_name text
  have htake : text.bytes.takeWhile (· ≠ 61) = name.bytes := by
    rcases htext with rfl | ⟨v, rfl⟩
    · exact (dashDash_name hname).1
    · exact (takeWhile_longName hname v.bytes).1
  rw [parseLongOption, htake, CString.read_bytes] at hrun
  split at hrun
  · cases hrun
  · rename_i i item hfind
    have hget := getElem?_of_findEntry hfind
    split at hrun
    · cases hrun
    · cases hrun
      exact .inl rfl
    · rename_i hcb
      have hfound : Found (getLongOpt table name) i item.type.args :=
        found_of_findEntry hsame (fun _ => rfl) hfind hcb
      right
      dsimp only at hrun
      split at hrun
      · rename_i hargs
        rw [show item.type.args = true from hargs] at hfound
        rcases htext with rfl | ⟨v, rfl⟩
        · rw [(dashDash_name hname).2] at hrun
          dsimp only at hrun
          split at hrun
          · rename_i v
            cases hrun
            refine ⟨[v], [⟨i, some v⟩], .longNext hname hfound, ?_, rfl, by simp⟩
            rw [set_eq_modify hget fun item => addCmdlineArg (setSeen item) v]
            rfl
          · cases hrun
        · have hdrop : (name.append (equalsText v)).bytes.dropWhile (· ≠ 61) = 61 :: v.bytes :=
            (takeWhile_longName hname v.bytes).2
          rw [hdrop] at hrun
          cases hv : v.bytes with
          | nil => simp [hv] at hrun
          | cons b str =>
              have hread := CString.read_bytes v
              rw [hv] at hrun hread
              simp only [hread] at hrun
              cases hrun
              refine ⟨[], [⟨i, some v⟩], .longEquals hname hfound (by simp [hv]), ?_, rfl, by simp⟩
              rw [set_eq_modify hget fun item => addCmdlineArg (setSeen item) v]
              rfl
      · rename_i hargs
        rw [show item.type.args = false from Bool.eq_false_iff.mpr hargs] at hfound
        cases hrun
        have hrecord : args.set i (setSeen item) = record args ⟨i, none⟩ :=
          set_eq_modify hget setSeen
        rcases htext with rfl | ⟨v, rfl⟩
        · exact ⟨[], [⟨i, none⟩], .longSwitch hname hfound, hrecord, rfl, by simp⟩
        · exact ⟨[], [⟨i, none⟩], .longIgnored hname hfound, hrecord, rfl, by simp⟩

theorem readAs_parseElement {table args args' : List CmdlineEntry}
    (hsame : SameOptions table args) {next : Option CString} {ptr : CString}
    {consumed : Consumed} (hrun : parseElement next args ptr = .ok (args', consumed)) :
    ReadAs (ReadsElement table ptr) next args args' consumed := by
  by_cases hdash : ptr.bytes.head? = some 45
  · obtain ⟨str, hptr⟩ := List.head?_eq_some_iff.mp hdash
    have hstr : 0 ∉ str := fun h => ptr.nul_notMem (hptr ▸ List.mem_cons_of_mem 45 h)
    by_cases hlong : str.head? = some 45
    · obtain ⟨text, rfl⟩ := List.head?_eq_some_iff.mp hlong
      have htext : 0 ∉ text := fun h => hstr (List.mem_cons_of_mem 45 h)
      obtain rfl : ptr = dashDash ⟨text, htext⟩ := CString.ext hptr
      rw [parseElement_dashDash] at hrun
      exact readAs_parseLongOption hsame hrun
    · rw [parseElement_letters hptr hlong] at hrun
      rcases readAs_parseShortOption hsame hstr hrun with
        hnothing | ⟨taken, occs, hreads, hrest⟩
      · exact .inl hnothing
      · exact .inr ⟨taken, occs, .letters hptr hlong hreads, hrest⟩
  · rw [parseElement_positional hdash, parseListItem] at hrun
    split at hrun
    · cases hrun
    · rename_i i item hfind
      cases hrun
      obtain ⟨item', hfind', -⟩ := findEntry_congr (fun _ => rfl) hsame.symm hfind
      refine .inr ⟨[], [⟨i, some ptr⟩], .positional hdash hfind', ?_, rfl, by simp⟩
      rw [← addCmdlineArg_setSeen,
        set_eq_modify (getElem?_of_findEntry hfind) fun item => addCmdlineArg (setSeen item) ptr]
      rfl

theorem exists_reads {table args args' : List CmdlineEntry} (hsame : SameOptions table args)
    {next : Option CString} {cmds : List CString}
    (hrun : parseElements next args false cmds = .ok (args', false)) :
    ∃ occs, Reads table cmds occs := by
  induction hn : cmds.length using Nat.strongRecOn generalizing cmds args with
  | ind n ih =>
      subst hn
      cases cmds with
      | nil => exact ⟨[], .nil⟩
      | cons ptr cmds =>
          simp only [parseElements, bind_eq_ok] at hrun
          obtain ⟨⟨mid, consumed⟩, helement, hrest⟩ := hrun
          have hmid := hsame.trans (parseElement_sameOptions helement)
          rcases readAs_parseElement hsame helement with
            rfl | ⟨taken, occs, hreads, -, rfl, htaken⟩
          · cases hrest
          · rcases hreads.taken_cases with rfl | ⟨v, rfl⟩
            · obtain ⟨occs', hocc⟩ := ih _ (Nat.lt_succ_self _) hmid hrest rfl
              exact ⟨occs ++ occs', .cons hreads hocc⟩
            · cases cmds with
              | nil => cases hrest
              | cons v' cmds =>
                  obtain rfl : v' = v := by simpa using htaken v (by simp)
                  have hless : cmds.length < (ptr :: v' :: cmds).length := by
                    simp only [List.length_cons]
                    omega
                  obtain ⟨occs', hocc⟩ := ih cmds.length hless hmid hrest rfl
                  exact ⟨occs ++ occs', .cons hreads hocc⟩

end SimpleVm.Cmdline
