import SimpleVm.Common.CmdlineEnvironment

/-!
# How an element ends

An element is read to its end, or it is rejected, or it calls back, or its
text is left: a lone dash is walked over its terminator, and an argument that
is missing at the end of a bundle is looked for behind the last element. Which
of these it is, its text and the options say, at any time of the run.
-/

namespace SimpleVm.Cmdline

/-! ## What an element can come to -/

/-- The letters in front are switches, and the next one and what is behind it are `P`. -/
inductive LettersLead (table : List CmdlineEntry) (P : CmdlineEntry → List UInt8 → Prop) :
    List UInt8 → Prop
  | here {b : UInt8} {i : ℕ} {item : CmdlineEntry} {str : List UInt8}
      (hfind : getShortOpt table (charInt b) = some (i, item)) (h : P item str) :
      LettersLead table P (b :: str)
  | behind {b : UInt8} {i : ℕ} {str : List UInt8}
      (hfound : Found (getShortOpt table (charInt b)) i false) (h : LettersLead table P str) :
      LettersLead table P (b :: str)

/-- The element is a dash and these letters. -/
structure IsBundle (ptr : CString) (str : List UInt8) : Prop where
  bytes : ptr.bytes = 45 :: str
  head : str.head? ≠ some 45

/-- The element is two dashes, the name, and behind it nothing or `=` and a text. -/
structure IsLong (ptr name : CString) : Prop where
  notMem : 61 ∉ name.bytes
  text : ptr = dashDash name ∨ ∃ text, ptr = dashDash (name.append (equalsText text))

/-- A callback that returns is called. -/
inductive CallsBack (table : List CmdlineEntry) (ptr : CString) : Prop
  | letter {str : List UInt8} (hptr : IsBundle ptr str)
      (h : LettersLead table (fun item _ => item.cb = some .returns) str) : CallsBack table ptr
  | dash {i : ℕ} {item : CmdlineEntry} (hptr : ptr = dash)
      (hfind : getShortOpt table 0 = some (i, item)) (hcb : item.cb = some .returns) :
      CallsBack table ptr
  | longName {name : CString} {i : ℕ} {item : CmdlineEntry} (hptr : IsLong ptr name)
      (hfind : getLongOpt table name = some (i, item)) (hcb : item.cb = some .returns) :
      CallsBack table ptr

/-- A lone dash, and the first entry without a letter has no callback. -/
structure PassesTerminator (table : List CmdlineEntry) (ptr : CString) : Prop where
  eq_dash : ptr = dash
  exists_item : ∃ i item, getShortOpt table 0 = some (i, item) ∧ item.cb = none

/-- The last letter of the element takes an argument. -/
def LacksArgument (table : List CmdlineEntry) (ptr : CString) : Prop :=
  ∃ str, IsBundle ptr str ∧
    LettersLead table (fun item str => item.cb = none ∧ item.type.args = true ∧ str = []) str

/-- The loop comes to an element that is `Q`, with those behind it. -/
def ComesTo (table : List CmdlineEntry) (cmds : List CString)
    (Q : CString → List CString → Prop) : Prop :=
  ∃ pre ptr post occs, cmds = pre ++ ptr :: post ∧ Reads table pre occs ∧ Q ptr post

/-! ## Readings -/

/-- What an element takes is at the front of what is behind it. -/
theorem ReadsElement.head?_append {table : List CmdlineEntry} {ptr : CString}
    {taken : List CString} {occs : List Occurrence} (h : ReadsElement table ptr taken occs)
    (rest : List CString) : ∀ v ∈ taken.head?, (taken ++ rest).head? = some v := by
  intro v hv
  rcases h.taken_cases with rfl | ⟨w, rfl⟩
  · cases hv
  · exact hv

theorem Reads.append {table : List CmdlineEntry} {pre post : List CString}
    {occs occs' : List Occurrence} (h : Reads table pre occs) (h' : Reads table post occs') :
    Reads table (pre ++ post) (occs ++ occs') := by
  induction h with
  | nil => exact h'
  | cons helement hrest ih =>
      rw [List.cons_append, List.append_assoc, List.append_assoc]
      exact .cons helement ih

/-! ## Letters -/

section Letters

variable {table args : List CmdlineEntry} {P : CmdlineEntry → List UInt8 → Prop}
  {next : Option CString} {str : List UInt8}

theorem LettersLead.ne_nil (h : LettersLead table P str) : str ≠ [] := by
  cases h <;> exact List.cons_ne_nil _ _

theorem Found.of_sameOptions {test : CmdlineEntry → Bool}
    (htest : ∀ item, test (plain item) = test item) (hsame : SameOptions table args) {i : ℕ}
    {takesArgs : Bool} (h : Found (findEntry test table) i takesArgs) :
    Found (findEntry test args) i takesArgs := by
  obtain ⟨item, hfind, hcb, hargs⟩ := h
  obtain ⟨item', hfind', hplain⟩ := findEntry_congr htest hsame hfind
  exact ⟨item', hfind', (cb_eq_of_plain hplain).trans hcb, (args_eq_of_plain hplain).trans hargs⟩

theorem parseShortOption_switch {b : UInt8} {i : ℕ}
    (hfound : Found (getShortOpt args (charInt b)) i false) (hne : str ≠ []) :
    parseShortOption next args (b :: str) =
      parseShortOption next (record args ⟨i, none⟩) str := by
  obtain ⟨item, hfind, hcb, hargs⟩ := hfound
  have hseen : ¬ (setSeen item).type.args = true := Bool.eq_false_iff.mp hargs
  rw [parseShortOption, hfind]
  dsimp only
  rw [hcb]
  dsimp only
  rw [if_neg hseen, if_neg hne, set_eq_modify (getElem?_of_findEntry hfind) setSeen]
  rfl

/-- The parser comes to the letter that the letters in front lead to. -/
theorem LettersLead.parse (h : LettersLead table P str) (hsame : SameOptions table args) :
    ∃ args' b i item item' rest, SameOptions args args' ∧ P item rest ∧
      getShortOpt args' (charInt b) = some (i, item') ∧ plain item' = plain item ∧
      ∀ next, parseShortOption next args str = parseShortOption next args' (b :: rest) := by
  induction h generalizing args with
  | @here b i item str hfind h =>
      obtain ⟨item', hfind', hplain⟩ := findEntry_congr (fun _ => rfl) hsame hfind
      exact ⟨args, b, i, item, item', str, SameOptions.refl args, h, hfind', hplain, fun _ => rfl⟩
  | @behind b i str hfound hrest ih =>
      have hrecord := sameOptions_record args ⟨i, none⟩
      obtain ⟨args', c, j, item, item', rest, hargs', hP, hfind, hplain, hparse⟩ :=
        ih (hsame.trans hrecord)
      refine ⟨args', c, j, item, item', rest, hrecord.trans hargs', hP, hfind, hplain, ?_⟩
      intro next
      rw [parseShortOption_switch (hfound.of_sameOptions (fun _ => rfl) hsame) hrest.ne_nil,
        hparse next]

/-- A letter that takes an argument finds one, or there is nothing behind it. -/
theorem parseShortOption_takes (next : Option CString) {b : UInt8} {i : ℕ} {item : CmdlineEntry}
    (hnul : 0 ∉ str) (hfind : getShortOpt args (charInt b) = some (i, item))
    (hcb : item.cb = none) (htakes : (setSeen item).type.args = true) :
    (parseShortOption next args (b :: str) = .error .invalidAccess ∧ next = none ∧ str = []) ∨
    ∃ args' consumed, parseShortOption next args (b :: str) = .ok (args', consumed) ∧
      consumed ≠ .nothing := by
  rcases shortArgument_cases hnul with ⟨rfl, harg⟩ | ⟨v, harg, -⟩
  · cases next with
    | none =>
        left
        refine ⟨?_, rfl, rfl⟩
        simp only [parseShortOption, hfind, hcb, htakes, if_true, harg]
    | some arg =>
        right
        refine ⟨args.set i (addCmdlineArg (setSeen item) arg), .withNext, ?_, by decide⟩
        simp only [parseShortOption, hfind, hcb, htakes, if_true, harg]
  · right
    refine ⟨args.set i (addCmdlineArg (setSeen item) v), .element, ?_, by decide⟩
    simp only [parseShortOption, hfind, hcb, htakes, if_true, harg]

/-- Behind switches a bundle ends with a rejection, a callback, the search for
an argument, or the end of what is to be read. -/
theorem parseShortOption_cases (next : Option CString) (hsame : SameOptions table args)
    (hne : str ≠ []) (hnul : 0 ∉ str) :
    parseShortOption next args str = .error .exit ∨
    ((∃ args', parseShortOption next args str = .ok (args', .nothing)) ∧
      LettersLead table (fun item _ => item.cb = some .returns) str) ∨
    (parseShortOption next args str = .error .invalidAccess ∧ next = none ∧
      LettersLead table (fun item str => item.cb = none ∧ item.type.args = true ∧ str = []) str) ∨
    ∃ args' consumed, parseShortOption next args str = .ok (args', consumed) ∧
      consumed ≠ .nothing := by
  induction str generalizing args with
  | nil => exact absurd rfl hne
  | cons b str ih =>
      have htail : 0 ∉ str := fun h => hnul (List.mem_cons_of_mem b h)
      cases hfind : getShortOpt args (charInt b) with
      | none =>
          left
          rw [parseShortOption, hfind]
      | some r =>
          obtain ⟨i, item⟩ := r
          obtain ⟨opt, hopt, hplain⟩ := findEntry_congr (fun _ => rfl) hsame.symm hfind
          have hcbs := cb_eq_of_plain hplain
          have hargs := args_eq_of_plain hplain
          cases hcb : item.cb with
          | some cb =>
              cases cb with
              | exits =>
                  left
                  rw [parseShortOption, hfind]
                  dsimp only
                  rw [hcb]
              | returns =>
                  right; left
                  refine ⟨⟨args, ?_⟩, .here hopt (hcbs.trans hcb)⟩
                  rw [parseShortOption, hfind]
                  dsimp only
                  rw [hcb]
          | none =>
              by_cases htakes : (setSeen item).type.args = true
              · rcases parseShortOption_takes next htail hfind hcb htakes with
                  ⟨hlost, hnext, hnil⟩ | hmoved
                · exact .inr (.inr (.inl ⟨hlost, hnext,
                    .here hopt ⟨hcbs.trans hcb, hargs.trans htakes, hnil⟩⟩))
                · exact .inr (.inr (.inr hmoved))
              · have hswitch : Found (getShortOpt args (charInt b)) i false :=
                  ⟨item, hfind, hcb, Bool.eq_false_iff.mpr htakes⟩
                by_cases hnil : str = []
                · right; right; right
                  refine ⟨args.set i (setSeen item), .element, ?_, by decide⟩
                  simp only [parseShortOption, hfind, hcb, htakes, hnil, if_true]
                  rfl
                · have hfound := hswitch.of_sameOptions (fun _ => rfl) hsame.symm
                  rw [parseShortOption_switch hswitch hnil]
                  rcases ih (hsame.trans (sameOptions_record args ⟨i, none⟩)) hnil htail with
                    hexit | ⟨hreturns, hlead⟩ | ⟨hlost, hnext, hlead⟩ | hmoved
                  · exact .inl hexit
                  · exact .inr (.inl ⟨hreturns, .behind hfound hlead⟩)
                  · exact .inr (.inr (.inl ⟨hlost, hnext, .behind hfound hlead⟩))
                  · exact .inr (.inr (.inr hmoved))

end Letters

/-! ## Elements -/

section Elements

variable {table args : List CmdlineEntry} {next : Option CString} {ptr : CString}

theorem parseElement_bundleText {str : List UInt8} (hptr : IsBundle ptr str)
    (next : Option CString) (args : List CmdlineEntry) :
    parseElement next args ptr = parseShortOption next args str :=
  parseElement_letters hptr.bytes hptr.head next args

/-- The terminator is looked up as a letter. -/
theorem parseElement_loneDash (next : Option CString) (hsame : SameOptions table args) :
    parseElement next args dash = .error .exit ∨
    (parseElement next args dash = .ok (args, .nothing) ∧ CallsBack table dash) ∨
    (parseElement next args dash = .error .invalidAccess ∧ PassesTerminator table dash) := by
  rw [show parseElement next args dash = parseShortOption next args [] from rfl, parseShortOption]
  cases hfind : getShortOpt args 0 with
  | none => exact .inl rfl
  | some r =>
      obtain ⟨i, item⟩ := r
      obtain ⟨opt, hopt, hplain⟩ := findEntry_congr (fun _ => rfl) hsame.symm hfind
      have hcbs := cb_eq_of_plain hplain
      dsimp only
      cases hcb : item.cb with
      | none => exact .inr (.inr ⟨rfl, rfl, i, opt, hopt, hcbs.trans hcb⟩)
      | some cb =>
          cases cb with
          | exits => exact .inl rfl
          | returns => exact .inr (.inl ⟨rfl, .dash rfl hopt (hcbs.trans hcb)⟩)

theorem parseElement_isLong {name : CString} (hptr : IsLong ptr name) (next : Option CString)
    (args : List CmdlineEntry) : ∃ text : CString, ptr = dashDash text ∧
      text.bytes.takeWhile (· ≠ 61) = name.bytes ∧
      parseElement next args ptr = parseLongOption next args text.bytes := by
  rcases hptr.text with rfl | ⟨text, rfl⟩
  · exact ⟨name, rfl, (dashDash_name hptr.notMem).1, parseElement_dashDash next args name⟩
  · exact ⟨_, rfl, (takeWhile_longName hptr.notMem text.bytes).1, parseElement_dashDash next args _⟩

theorem exists_isLong (text : CString) : ∃ name, IsLong (dashDash text) name := by
  obtain ⟨name, hname, htext⟩ := exists_name text
  refine ⟨name, hname, ?_⟩
  rcases htext with rfl | ⟨v, rfl⟩
  · exact .inl rfl
  · exact .inr ⟨v, rfl⟩

theorem parseLongOption_cases (next : Option CString) (hsame : SameOptions table args)
    {name : CString} (hptr : IsLong ptr name) :
    parseElement next args ptr = .error .exit ∨
    (parseElement next args ptr = .ok (args, .nothing) ∧ CallsBack table ptr) ∨
    ∃ args' consumed, parseElement next args ptr = .ok (args', consumed) ∧ consumed ≠ .nothing := by
  obtain ⟨text, -, htake, hparse⟩ := parseElement_isLong hptr next args
  rw [hparse, parseLongOption, htake, CString.read_bytes]
  cases hfind : getLongOpt args name with
  | none => exact .inl rfl
  | some r =>
      obtain ⟨i, item⟩ := r
      obtain ⟨opt, hopt, hplain⟩ := findEntry_congr (fun _ => rfl) hsame.symm hfind
      have hcbs := cb_eq_of_plain hplain
      dsimp only
      cases hcb : item.cb with
      | some cb =>
          cases cb with
          | exits => exact .inl rfl
          | returns => exact .inr (.inl ⟨rfl, .longName hptr hopt (hcbs.trans hcb)⟩)
      | none =>
          dsimp only
          by_cases htakes : (setSeen item).type.args = true
          · rw [if_pos htakes]
            cases text.bytes.dropWhile (· ≠ 61) with
            | nil =>
                cases next with
                | none => exact .inl rfl
                | some arg => exact .inr (.inr ⟨_, .withNext, rfl, by decide⟩)
            | cons c arg =>
                cases arg with
                | nil => exact .inl rfl
                | cons d arg => exact .inr (.inr ⟨_, .element, rfl, by decide⟩)
          · rw [if_neg htakes]
            exact .inr (.inr ⟨_, .element, rfl, by decide⟩)

end Elements

/-- What becomes of an element: it is rejected, it calls back, its text is left, or it is read. -/
inductive Outcome (table : List CmdlineEntry) (next : Option CString) (args : List CmdlineEntry)
    (ptr : CString) : Prop
  | rejected (h : parseElement next args ptr = .error .exit)
  | callsBack (args' : List CmdlineEntry) (h : parseElement next args ptr = .ok (args', .nothing))
      (hcalls : CallsBack table ptr)
  | left (h : parseElement next args ptr = .error .invalidAccess)
      (hleft : PassesTerminator table ptr ∨ next = none ∧ LacksArgument table ptr)
  | read (taken : List CString) (occs : List Occurrence)
      (hreads : ReadsElement table ptr taken occs) (htaken : ∀ v ∈ taken, next = some v)
      (h : parseElement next args ptr = .ok (occs.foldl record args, consumedBy taken))

theorem Outcome.of_ok {table args args' : List CmdlineEntry} {next : Option CString} {ptr : CString}
    {consumed : Consumed} (hsame : SameOptions table args)
    (h : parseElement next args ptr = .ok (args', consumed)) (hne : consumed ≠ .nothing) :
    Outcome table next args ptr := by
  rcases readAs_parseElement hsame h with rfl | ⟨taken, occs, hreads, rfl, rfl, htaken⟩
  · exact absurd rfl hne
  · exact .read taken occs hreads htaken h

section Outcome

variable {table args : List CmdlineEntry} (hsame : SameOptions table args)
  (next : Option CString) {ptr : CString}

include hsame

theorem outcome_dashDash (text : CString) : Outcome table next args (dashDash text) := by
  obtain ⟨name, hname⟩ := exists_isLong text
  rcases parseLongOption_cases next hsame hname with
    hexit | ⟨hreturns, hcalls⟩ | ⟨args', consumed, hmoved, hne⟩
  · exact .rejected hexit
  · exact .callsBack args hreturns hcalls
  · exact .of_ok hsame hmoved hne

theorem outcome_dash : Outcome table next args dash := by
  rcases parseElement_loneDash next hsame with hexit | ⟨hreturns, hcalls⟩ | ⟨hlost, hpast⟩
  · exact .rejected hexit
  · exact .callsBack args hreturns hcalls
  · exact .left hlost (.inl hpast)

theorem outcome_bundle {str : List UInt8} (hptr : IsBundle ptr str) (hne : str ≠ []) :
    Outcome table next args ptr := by
  have hnul : 0 ∉ str := fun hmem =>
    ptr.nul_notMem (hptr.bytes ▸ List.mem_cons_of_mem 45 hmem)
  have hparse := parseElement_bundleText hptr next args
  rcases parseShortOption_cases next hsame hne hnul with
    hexit | ⟨⟨args', hreturns⟩, hlead⟩ | ⟨hlost, hnext, hlead⟩ | ⟨args', consumed, hmoved, hmoves⟩
  · exact .rejected (hparse.trans hexit)
  · exact .callsBack args' (hparse.trans hreturns) (.letter hptr hlead)
  · exact .left (hparse.trans hlost) (.inr ⟨hnext, str, hptr, hlead⟩)
  · exact .of_ok hsame (hparse.trans hmoved) hmoves

theorem outcome_positional (hptr : ptr.bytes.head? ≠ some 45) : Outcome table next args ptr := by
  have hparse := parseElement_positional hptr next args
  rw [parseListItem] at hparse
  cases hfind : findEntry (fun item => item.type.anon) args with
  | none =>
      rw [hfind] at hparse
      exact .rejected hparse
  | some r =>
      rw [hfind] at hparse
      exact .of_ok hsame hparse (by decide)

theorem outcome (ptr : CString) : Outcome table next args ptr := by
  by_cases hdash : ptr.bytes.head? = some 45
  · obtain ⟨str, hptr⟩ := List.head?_eq_some_iff.mp hdash
    by_cases hlong : str.head? = some 45
    · obtain ⟨text, rfl⟩ := List.head?_eq_some_iff.mp hlong
      have hnul : 0 ∉ text := fun hmem => ptr.nul_notMem
        (hptr ▸ List.mem_cons_of_mem 45 (List.mem_cons_of_mem 45 hmem))
      obtain rfl : ptr = dashDash ⟨text, hnul⟩ := CString.ext hptr
      exact outcome_dashDash hsame next ⟨text, hnul⟩
    · by_cases hnil : str = []
      · obtain rfl : ptr = dash := CString.ext (hptr.trans (by rw [hnil]; rfl))
        exact outcome_dash hsame next
      · exact outcome_bundle hsame next ⟨hptr, hlong⟩ hnil
  · exact outcome_positional hsame next hdash

end Outcome

/-! ## The other way round -/

theorem CallsBack.parse {table args : List CmdlineEntry} {ptr : CString} (h : CallsBack table ptr)
    (hsame : SameOptions table args) (next : Option CString) :
    ∃ args', parseElement next args ptr = .ok (args', .nothing) := by
  cases h with
  | letter hptr hlead =>
      obtain ⟨args', b, i, item, item', rest, -, hcb, hfind, hplain, hparse⟩ := hlead.parse hsame
      have hcb' : item'.cb = some .returns := (cb_eq_of_plain hplain).trans hcb
      refine ⟨args', ?_⟩
      rw [parseElement_bundleText hptr, hparse, parseShortOption, hfind]
      simp only [hcb']
  | dash hptr hfind hcb =>
      subst hptr
      obtain ⟨item', hfind', hplain⟩ := findEntry_congr (fun _ => rfl) hsame hfind
      have hcb' : item'.cb = some .returns := (cb_eq_of_plain hplain).trans hcb
      refine ⟨args, ?_⟩
      rw [show parseElement next args Cmdline.dash = parseShortOption next args [] from rfl,
        parseShortOption, getShortOpt, hfind']
      simp only [hcb']
  | longName hptr hfind hcb =>
      obtain ⟨item', hfind', hplain⟩ := findEntry_congr (fun _ => rfl) hsame hfind
      have hcb' : item'.cb = some .returns := (cb_eq_of_plain hplain).trans hcb
      obtain ⟨text, -, htake, hparse⟩ := parseElement_isLong hptr next args
      refine ⟨args, ?_⟩
      rw [hparse, parseLongOption, htake, CString.read_bytes, getLongOpt, hfind']
      simp only [hcb']

theorem PassesTerminator.parse {table args : List CmdlineEntry} {ptr : CString}
    (h : PassesTerminator table ptr) (hsame : SameOptions table args) (next : Option CString) :
    parseElement next args ptr = .error .invalidAccess := by
  obtain ⟨rfl, i, item, hfind, hcb⟩ := h
  obtain ⟨item', hfind', hplain⟩ := findEntry_congr (fun _ => rfl) hsame hfind
  have hcb' : item'.cb = none := (cb_eq_of_plain hplain).trans hcb
  rw [show parseElement next args dash = parseShortOption next args [] from rfl,
    parseShortOption, getShortOpt, hfind']
  simp only [hcb']

theorem LacksArgument.parse {table args : List CmdlineEntry} {ptr : CString}
    (h : LacksArgument table ptr) (hsame : SameOptions table args) :
    parseElement none args ptr = .error .invalidAccess := by
  obtain ⟨str, hptr, hlead⟩ := h
  obtain ⟨args', b, i, item, item', rest, -, ⟨hcb, hargs, rfl⟩, hfind, hplain, hparse⟩ :=
    hlead.parse hsame
  have hcb' : item'.cb = none := (cb_eq_of_plain hplain).trans hcb
  have htakes : (setSeen item').type.args = true := (args_eq_of_plain hplain).trans hargs
  rw [parseElement_bundleText hptr, hparse, parseShortOption, hfind]
  simp only [hcb', htakes, if_true]
  rfl

end SimpleVm.Cmdline
