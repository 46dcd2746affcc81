import SimpleVm.Common.CmdlineReading

/-!
# The environment on the command line

The environment stands behind the options in the list that every search goes
through. A variable has no long name, no callback, is not required and takes
no arguments, so no search for an option selects it, but one: a lone dash is
looked up as the letter that all entries without one have.
-/

namespace SimpleVm.Cmdline

def dash : CString := ⟨[45], by decide⟩

/-- A lone dash stands where the loop begins a new element. -/
def ComesToDash (table : List CmdlineEntry) (cmds : List CString) : Prop :=
  ∃ pre post occs, cmds = pre ++ dash :: post ∧ Reads table pre occs

/-- Behind a dash for which an entry without a callback is found, the bytes
behind the argument's terminator decide how the run goes on. -/
def ReadsBehind (table : List CmdlineEntry) (env argv : List CString) : Prop :=
  ComesToDash table argv.tail ∧ ∃ vars i item, storeEnvironment env = .ok vars ∧
    getShortOpt (table ++ vars) 0 = some (i, item) ∧ item.cb = none

def SameAnswers (table args₁ args₂ : List CmdlineEntry) : Prop :=
  ∀ opt ∈ table, ∀ name, opt.name = some name →
    getCmdOpt args₁ name = getCmdOpt args₂ name ∧
      (∀ mark, iterateCmdOpt args₁ name mark = iterateCmdOpt args₂ name mark) ∧
      ∀ item, inCmdList args₁ name item = inCmdList args₂ name item

/-- Both runs are accepted with the same answers, or rejected in the same way. -/
structure Alike (table : List CmdlineEntry) (env₁ env₂ argv : List CString) : Prop where
  determined₁ : ¬ ReadsBehind table env₁ argv
  determined₂ : ¬ ReadsBehind table env₂ argv
  same : match parseCmdline table env₁ argv, parseCmdline table env₂ argv with
    | .ok args₁, .ok args₂ => SameAnswers table args₁ args₂
    | .error e₁, .error e₂ => e₁ = e₂
    | _, _ => False

def ShortEntries (env : List CString) : Prop := ∀ entry ∈ env, entry.strlen < 1024

instance (env : List CString) : Decidable (ShortEntries env) :=
  inferInstanceAs (Decidable (∀ entry ∈ env, _))

/-- The environment makes no difference to these arguments. -/
def Undisturbed (table : List CmdlineEntry) (argv : List CString) : Prop :=
  ∀ env₁ env₂, ShortEntries env₁ → ShortEntries env₂ → Alike table env₁ env₂ argv

/-- The first option without a letter has a callback. -/
def CallbackForNoLetter (table : List CmdlineEntry) : Prop :=
  ∃ i item, getShortOpt table 0 = some (i, item) ∧ item.cb ≠ none

/-! ## Lone dashes -/

/-- No run is accepted that comes to one: it is rejected, stays there or reads behind it. -/
theorem ComesToDash.not_accepted {table args : List CmdlineEntry} {cmds : List CString}
    (h : ComesToDash table cmds) (hext : Extends table args)
    (r : List CmdlineEntry × Bool) : parseElements none args false cmds ≠ .ok r := by
  obtain ⟨pre, post, occs, rfl, hpre⟩ := h
  intro hrun
  rw [parseElements_append, hpre.parse hext, ok_bind] at hrun
  obtain ⟨⟨mid, consumed⟩, helement, hrest⟩ := bind_eq_ok.mp hrun
  rw [show parseElement (post.head?.or none) (occs.foldl record args) dash =
    parseShortOption (post.head?.or none) (occs.foldl record args) [] from rfl,
    parseShortOption] at helement
  split at helement
  · cases helement
  · split at helement <;> cases helement
    cases hrest

/-! ## Variables -/

structure IsVariable (item : CmdlineEntry) : Prop where
  shortOpt : item.shortOpt = 0
  longOpt : item.longOpt = none
  cb : item.cb = none
  type : item.type = {}

theorem storeEntry_spec {entry : CString} (hshort : entry.strlen < 1024) :
    ∃ vars, storeEntry entry = .ok vars ∧ ∀ item ∈ vars, IsVariable item := by
  unfold storeEntry
  rw [if_neg (not_le.mpr hshort)]
  split
  · exact ⟨[], rfl, by simp⟩
  · refine ⟨_, rfl, ?_⟩
    intro item hitem
    obtain rfl := List.mem_singleton.mp hitem
    exact ⟨rfl, rfl, rfl, rfl⟩

theorem storeEnvironment_spec {env : List CString} (hshort : ShortEntries env) :
    ∃ vars, storeEnvironment env = .ok vars ∧ ∀ item ∈ vars, IsVariable item := by
  induction env with
  | nil => exact ⟨[], rfl, by simp⟩
  | cons entry env ih =>
      obtain ⟨head, hhead, hvars⟩ := storeEntry_spec (hshort entry List.mem_cons_self)
      obtain ⟨tail, htail, hvars'⟩ := ih fun e he => hshort e (List.mem_cons_of_mem entry he)
      refine ⟨head ++ tail, by rw [storeEnvironment, hhead, ok_bind, htail, ok_bind], ?_⟩
      intro item hitem
      rcases List.mem_append.mp hitem with hitem | hitem
      · exact hvars item hitem
      · exact hvars' item hitem

theorem shortEntries_of_ok {env : List CString} {vars : List CmdlineEntry}
    (h : storeEnvironment env = .ok vars) : ShortEntries env := by
  induction env generalizing vars with
  | nil => exact List.forall_mem_nil _
  | cons entry env ih =>
      obtain ⟨head, hhead, hrest⟩ := bind_eq_ok.mp h
      obtain ⟨tail, htail, -⟩ := bind_eq_ok.mp hrest
      have hentry : entry.strlen < 1024 := by
        by_contra hlong
        rw [storeEntry, if_pos (Nat.not_lt.mp hlong)] at hhead
        cases hhead
      exact List.forall_mem_cons.mpr ⟨hentry, ih htail⟩

/-! ## Searching past the variables -/

theorem findEntry_eq_none_iff {test : CmdlineEntry → Bool} {args : List CmdlineEntry} :
    findEntry test args = none ↔ ∀ item ∈ args, test item = false := by
  induction args with
  | nil => simp [findEntry]
  | cons item args ih =>
      rw [findEntry, List.forall_mem_cons, ← ih]
      by_cases hitem : test item = true
      · simp [hitem]
      · simp [hitem]

theorem findEntry_append_of_false {test : CmdlineEntry → Bool} {vars : List CmdlineEntry}
    (hvars : ∀ item ∈ vars, test item = false) (args : List CmdlineEntry) :
    findEntry test (args ++ vars) = findEntry test args := by
  induction args with
  | nil => exact findEntry_eq_none_iff.mpr hvars
  | cons item args ih => rw [List.cons_append, findEntry, findEntry, ih]

theorem set_append_of_findEntry {test : CmdlineEntry → Bool} {args vars : List CmdlineEntry}
    {i : ℕ} {item : CmdlineEntry} (hfind : findEntry test args = some (i, item))
    (item' : CmdlineEntry) : (args ++ vars).set i item' = args.set i item' ++ vars := by
  obtain ⟨hlt, -⟩ := List.getElem?_eq_some_iff.mp (getElem?_of_findEntry hfind)
  exact List.set_append_left i item' hlt

section Vars

variable {vars : List CmdlineEntry} (hvars : ∀ item ∈ vars, IsVariable item)

/-- The same result, with the variables behind the options. -/
def withVars {γ : Type} (vars : List CmdlineEntry) :
    Except Halt (List CmdlineEntry × γ) → Except Halt (List CmdlineEntry × γ)
  | .ok (args, c) => .ok (args ++ vars, c)
  | .error e => .error e

include hvars

theorem getShortOpt_vars {ch : ℤ} (hch : ch ≠ 0) (args : List CmdlineEntry) :
    getShortOpt (args ++ vars) ch = getShortOpt args ch := by
  apply findEntry_append_of_false
  intro item hitem
  rw [decide_eq_false_iff_not, (hvars item hitem).shortOpt]
  exact hch.symm

theorem getLongOpt_vars (str : CString) (args : List CmdlineEntry) :
    getLongOpt (args ++ vars) str = getLongOpt args str := by
  apply findEntry_append_of_false
  intro item hitem
  simp [(hvars item hitem).longOpt]

theorem parseShortOption_vars {next : Option CString} {args : List CmdlineEntry}
    {str : List UInt8} (hstr : 0 ∉ str) (hdash : str = [] → ∃ r, getShortOpt args 0 = some r) :
    parseShortOption next (args ++ vars) str = withVars vars (parseShortOption next args str) := by
  induction str generalizing args with
  | nil =>
      obtain ⟨⟨i, item⟩, hfind⟩ := hdash rfl
      rw [parseShortOption, parseShortOption, hfind, getShortOpt, findEntry_append hfind]
      simp only
      cases hcb : item.cb with
      | none => rfl
      | some cb => cases cb <;> rfl
  | cons b str ih =>
      have hb : b ≠ 0 := fun h => hstr (h ▸ List.mem_cons_self)
      have htail : 0 ∉ str := fun h => hstr (List.mem_cons_of_mem b h)
      rw [parseShortOption, parseShortOption, getShortOpt_vars hvars (charInt_ne_zero hb)]
      cases hfind : getShortOpt args (charInt b) with
      | none => rfl
      | some r =>
          obtain ⟨i, item⟩ := r
          simp only
          cases hcb : item.cb with
          | some cb => cases cb <;> rfl
          | none =>
              simp only [set_append_of_findEntry hfind]
              by_cases hargs : (setSeen item).type.args = true
              · simp only [hargs, if_true]
                cases shortArgument str with
                | some arg => rfl
                | none => cases next <;> rfl
              · simp only [hargs]
                by_cases hnil : str = []
                · simp only [hnil, if_true]
                  rfl
                · simp only [hnil, if_false]
                  apply ih htail
                  exact fun h => (hnil h).elim

theorem parseLongOption_vars (next : Option CString) (args : List CmdlineEntry)
    (str : List UInt8) :
    parseLongOption next (args ++ vars) str = withVars vars (parseLongOption next args str) := by
  rw [parseLongOption, parseLongOption, getLongOpt_vars hvars]
  cases hfind : getLongOpt args (CString.read (str.takeWhile (· ≠ 61))) with
  | none => rfl
  | some r =>
      obtain ⟨i, item⟩ := r
      simp only
      cases hcb : item.cb with
      | some cb => cases cb <;> rfl
      | none =>
          simp only [set_append_of_findEntry hfind]
          by_cases hargs : (setSeen item).type.args = true
          · simp only [hargs, if_true]
            cases str.dropWhile (· ≠ 61) with
            | nil => cases next <;> rfl
            | cons b rest => cases rest <;> rfl
          · simp only [hargs]
            rfl

theorem parseElement_vars {next : Option CString} {args : List CmdlineEntry} {ptr : CString}
    (hdash : ptr = dash → ∃ r, getShortOpt args 0 = some r) :
    parseElement next (args ++ vars) ptr = withVars vars (parseElement next args ptr) := by
  unfold parseElement
  split
  · exact parseLongOption_vars hvars next args _
  · rename_i str _ hptr
    apply parseShortOption_vars hvars
    · exact fun h => ptr.nul_notMem (hptr ▸ List.mem_cons_of_mem 45 h)
    · rintro rfl
      exact hdash (CString.ext hptr)
  · rw [parseListItem, parseListItem, findEntry_append_of_false]
    · cases hfind : findEntry (fun item => item.type.anon) args with
      | none => rfl
      | some r => simp only [set_append_of_findEntry hfind, withVars]
    · intro item hitem
      rw [(hvars item hitem).type]

/-- As long as no lone dash is looked up among the variables, they are just carried along. -/
theorem parseElements_vars {table args : List CmdlineEntry} (hsame : SameOptions table args)
    {cmds : List CString} (hdash : ComesToDash table cmds → ∃ r, getShortOpt table 0 = some r) :
    parseElements none (args ++ vars) false cmds =
      withVars vars (parseElements none args false cmds) := by
  induction hn : cmds.length using Nat.strongRecOn generalizing cmds args with
  | ind n ih =>
      subst hn
      cases cmds with
      | nil => rfl
      | cons ptr cmds =>
          have hptr : ptr = dash → ∃ r, getShortOpt args 0 = some r := by
            rintro rfl
            obtain ⟨⟨i, item⟩, hfind⟩ := hdash ⟨[], cmds, [], rfl, .nil⟩
            obtain ⟨item', hfind', -⟩ := findEntry_congr (fun _ => rfl) hsame hfind
            exact ⟨(i, item'), hfind'⟩
          rw [parseElements, parseElements, parseElement_vars hvars hptr]
          cases helement : parseElement (cmds.head?.or none) args ptr with
          | error e => rfl
          | ok r =>
              obtain ⟨mid, consumed⟩ := r
              have hmid := hsame.trans (parseElement_sameOptions helement)
              rcases readAs_parseElement hsame helement with
                rfl | ⟨taken, occs, hreads, -, rfl, htaken⟩
              · rfl
              · have hrest : ∀ rest, cmds = taken ++ rest → ComesToDash table rest →
                    ∃ r, getShortOpt table 0 = some r := by
                  rintro rest rfl ⟨pre, post, occs', rfl, hpre⟩
                  apply hdash
                  refine ⟨ptr :: (taken ++ pre), post, occs ++ occs', ?_, .cons hreads hpre⟩
                  simp
                rcases hreads.taken_cases with rfl | ⟨v, rfl⟩
                · exact ih _ (Nat.lt_succ_self _) hmid (hrest cmds rfl) rfl
                · cases cmds with
                  | nil => rfl
                  | cons v' cmds =>
                      obtain rfl : v' = v := by simpa using htaken v (by simp)
                      have hless : cmds.length < (ptr :: v' :: cmds).length := by
                        simp only [List.length_cons]
                        omega
                      exact ih cmds.length hless hmid (hrest cmds rfl) rfl

theorem parseCmdline_vars {table : List CmdlineEntry} {env argv : List CString}
    (henv : storeEnvironment env = .ok vars)
    (hdash : ComesToDash table argv.tail → ∃ r, getShortOpt table 0 = some r) :
    parseCmdline table env argv =
      (parseCmdline table [] argv).map (fun args => args ++ vars) := by
  have hreqd : vars.any (fun opt => opt.type.reqd && !opt.type.seen) = false := by
    rw [List.any_eq_false]
    intro item hitem
    rw [(hvars item hitem).type]
    simp
  unfold parseCmdline
  simp only [henv, storeEnvironment, List.append_nil,
    parseElements_vars hvars (SameOptions.refl table) hdash, ok_bind]
  cases parseElements none table false argv.tail with
  | error e => rfl
  | ok r =>
      obtain ⟨args, skip⟩ := r
      simp only [withVars, ok_bind, List.any_append, hreqd, Bool.or_false]
      split <;> rfl

end Vars

theorem sameOptions_parseCmdline {table args : List CmdlineEntry} {argv : List CString}
    (hrun : parseCmdline table [] argv = .ok args) : SameOptions table args := by
  unfold parseCmdline at hrun
  rw [storeEnvironment, ok_bind, List.append_nil] at hrun
  obtain ⟨⟨args', skip⟩, hparse, hrest⟩ := bind_eq_ok.mp hrun
  have hsame := parseElements_sameOptions hparse
  simp only at hrest
  split at hrest
  · cases hrest
  · cases hrest
    exact hsame

/-- What is accepted is accepted without the environment, and the variables stand behind it. -/
theorem exists_opts_of_parseCmdline {table args : List CmdlineEntry} {env argv : List CString}
    (hrun : parseCmdline table env argv = .ok args) :
    ∃ vars opts, storeEnvironment env = .ok vars ∧ parseCmdline table [] argv = .ok opts ∧
      args = opts ++ vars := by
  obtain ⟨vars, hstore, hrest⟩ := bind_eq_ok.mp hrun
  obtain ⟨r, hparse, -⟩ := bind_eq_ok.mp hrest
  have hdash : ¬ ComesToDash table argv.tail := fun hcomes =>
    hcomes.not_accepted ⟨vars, SameOptions.refl _⟩ r hparse
  obtain ⟨vars', hstore', hvars⟩ := storeEnvironment_spec (shortEntries_of_ok hstore)
  obtain rfl := Except.ok.inj (hstore'.symm.trans hstore)
  rw [parseCmdline_vars hvars hstore fun h => (hdash h).elim] at hrun
  cases hopts : parseCmdline table [] argv with
  | error e =>
      rw [hopts] at hrun
      cases hrun
  | ok opts =>
      rw [hopts] at hrun
      exact ⟨vars', opts, hstore, rfl, (Except.ok.inj hrun).symm⟩

theorem getOptByName_append {table args : List CmdlineEntry} (hsame : SameOptions table args)
    {opt : CmdlineEntry} (hopt : opt ∈ table) {name : CString} (hname : opt.name = some name)
    (vars : List CmdlineEntry) : getOptByName (args ++ vars) name = getOptByName args name := by
  have hfound : ∃ r, findEntry (fun item => item.name = some name) table = some r := by
    cases hfind : findEntry (fun item => item.name = some name) table with
    | some r => exact ⟨r, rfl⟩
    | none =>
        have hfalse := findEntry_eq_none_iff.mp hfind opt hopt
        simp [hname] at hfalse
  obtain ⟨⟨i, item⟩, hfind⟩ := hfound
  obtain ⟨item', hfind', -⟩ := findEntry_congr (fun _ => rfl) hsame hfind
  rw [getOptByName, getOptByName, findEntry_append hfind', hfind']

theorem sameAnswers_append {table args : List CmdlineEntry} (hsame : SameOptions table args)
    (vars₁ vars₂ : List CmdlineEntry) : SameAnswers table (args ++ vars₁) (args ++ vars₂) := by
  intro opt hopt name hname
  have h₁ := getOptByName_append hsame hopt hname vars₁
  have h₂ := getOptByName_append hsame hopt hname vars₂
  have hiter : iterateCmdOpt (args ++ vars₁) name = iterateCmdOpt (args ++ vars₂) name := by
    funext mark
    rw [iterateCmdOpt, iterateCmdOpt, h₁, h₂]
  refine ⟨by rw [getCmdOpt, getCmdOpt, h₁, h₂], fun mark => congrFun hiter mark, ?_⟩
  intro item
  have hfrom : ∀ n mark, inCmdListFrom (args ++ vars₁) name item n mark =
      inCmdListFrom (args ++ vars₂) name item n mark := by
    intro n
    induction n with
    | zero => exact fun _ => rfl
    | succ n ih =>
        intro mark
        rw [inCmdListFrom, inCmdListFrom, hiter]
        simp only [ih]
  rw [inCmdList, inCmdList, h₁, h₂]
  simp only [hfrom]

/-- No environment makes a difference exactly when no lone dash begins an
element, unless the first option without a letter takes it to a callback. -/
theorem undisturbed_iff (table : List CmdlineEntry) (argv : List CString) :
    Undisturbed table argv ↔ (ComesToDash table argv.tail → CallbackForNoLetter table) := by
  constructor
  · intro h hcomes
    by_contra hno
    cases hfind : getShortOpt table 0 with
    | some r =>
        obtain ⟨i, item⟩ := r
        apply (h [] [] (by simp [ShortEntries]) (by simp [ShortEntries])).determined₁
        refine ⟨hcomes, [], i, item, rfl, ?_, ?_⟩
        · rw [List.append_nil, hfind]
        · by_contra hcb
          exact hno ⟨i, item, hfind, hcb⟩
    | none =>
        have hshort : ShortEntries [⟨[65, 61, 98], by decide⟩] := by decide
        obtain ⟨vars, hstore, hvars⟩ := storeEnvironment_spec hshort
        apply (h _ [] hshort (by simp [ShortEntries])).determined₁
        cases vars with
        | nil => simp [storeEnvironment, storeEntry, CString.strlen] at hstore
        | cons item vars =>
            obtain ⟨hitem, -⟩ := List.forall_mem_cons.mp hvars
            refine ⟨hcomes, item :: vars, table.length, item, hstore, ?_, hitem.cb⟩
            apply findEntry_append_cons (findEntry_eq_none_iff.mp hfind)
            simpa using hitem.shortOpt
  · intro h env₁ env₂ hshort₁ hshort₂
    have hfind : ComesToDash table argv.tail → ∃ r, getShortOpt table 0 = some r := by
      intro hcomes
      obtain ⟨i, item, hfind, -⟩ := h hcomes
      exact ⟨(i, item), hfind⟩
    have hdetermined : ∀ env, ¬ ReadsBehind table env argv := by
      rintro env ⟨hcomes, vars, i, item, -, hitem, hcb⟩
      obtain ⟨j, item', hfind', hcb'⟩ := h hcomes
      rw [getShortOpt, findEntry_append hfind'] at hitem
      obtain ⟨-, rfl⟩ : j = i ∧ item' = item := by simpa using hitem
      exact hcb' hcb
    obtain ⟨vars₁, hstore₁, hvars₁⟩ := storeEnvironment_spec hshort₁
    obtain ⟨vars₂, hstore₂, hvars₂⟩ := storeEnvironment_spec hshort₂
    refine ⟨hdetermined env₁, hdetermined env₂, ?_⟩
    rw [parseCmdline_vars hvars₁ hstore₁ hfind, parseCmdline_vars hvars₂ hstore₂ hfind]
    cases hrun : parseCmdline table [] argv with
    | error e => rfl
    | ok args => exact sameAnswers_append (sameOptions_parseCmdline hrun) vars₁ vars₂

/-- With `-x` as the only option a lone dash is rejected where the environment is empty.
With one variable in it the dash is accepted as its letter, and the run reads on. -/
theorem not_undisturbed_dash :
    ¬ Undisturbed [addCmdline 120 none (some (CString.read [120])) none none {}]
      [CString.read [116], dash] := by
  intro h
  have hsame := (h [] [⟨[65, 61, 98], by decide⟩] (by decide) (by decide)).same
  have hempty : parseCmdline [addCmdline 120 none (some (CString.read [120])) none none {}] []
      [CString.read [116], dash] = .error .exit := by decide
  have hvariable : parseCmdline [addCmdline 120 none (some (CString.read [120])) none none {}]
      [⟨[65, 61, 98], by decide⟩] [CString.read [116], dash] = .error .invalidAccess := by
    decide
  rw [hempty, hvariable] at hsame
  cases hsame

end SimpleVm.Cmdline
