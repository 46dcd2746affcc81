import Mathlib.Data.List.Basic
import SimpleVm.Common.Cmdline

/-!
# Spellings of the same option

Parsing changes values and `CMD_SEEN` flags only, so every search of the
table finds the same place at any time. An element is parsed without regard
to the one behind it unless it takes that one as its value. From a place
where a new element begins, all spellings of an option with its value reach
the same table and the same rest of the arguments.
-/

namespace SimpleVm.Cmdline

/-! ## Elements -/

structure Letter where
  byte : UInt8
  ne_nul : byte ≠ 0
  ne_dash : byte ≠ 45
  deriving DecidableEq

def Letter.dash (c : Letter) (text : CString) : CString where
  bytes := 45 :: c.byte :: text.bytes
  nul_notMem := by simp [c.ne_nul.symm, text.nul_notMem]

def dashDash (text : CString) : CString where
  bytes := 45 :: 45 :: text.bytes
  nul_notMem := by simp [text.nul_notMem]

def equalsText (v : CString) : CString where
  bytes := 61 :: v.bytes
  nul_notMem := by simp [v.nul_notMem]

def bundle (letters : List Letter) : CString where
  bytes := 45 :: letters.map Letter.byte
  nul_notMem := by
    simp only [List.mem_cons, List.mem_map, not_or, not_exists, not_and]
    exact ⟨by decide, fun c _ => c.ne_nul⟩

/-- The ways to give the option with this letter and long name a value. -/
inductive Spelling (c : Letter) (longName v : CString) : List CString → Prop
  | letterNext : Spelling c longName v [c.dash CString.empty, v]
  | letterEquals : Spelling c longName v [c.dash (equalsText v)]
  | letterJoined (h : v.bytes.head? ≠ some 61) : Spelling c longName v [c.dash v]
  | longNext : Spelling c longName v [dashDash longName, v]
  | longEquals : Spelling c longName v [dashDash (longName.append (equalsText v))]

/-- Letters and long names stand for one option each. -/
structure UniqueOptions (table : List CmdlineEntry) : Prop where
  letters : table.Pairwise fun a b => a.shortOpt = b.shortOpt → a.shortOpt = 0
  longNames : table.Pairwise fun a b => a.longOpt = b.longOpt → a.longOpt = none

/-- The element behind these is taken as the value of the last of them. -/
def TakesNext (args : List CmdlineEntry) (cmds : List CString) : Prop :=
  ∃ next args', parseElements (some next) args false cmds = .ok (args', true)

/-! ## What parsing leaves alone -/

/-- The entry without its value and its flag. -/
def plain (item : CmdlineEntry) : CmdlineEntry :=
  { item with value := none, type := { item.type with seen := false } }

def SameOptions (args args' : List CmdlineEntry) : Prop := args.map plain = args'.map plain

theorem SameOptions.refl (args : List CmdlineEntry) : SameOptions args args := rfl

theorem SameOptions.trans {args₁ args₂ args₃ : List CmdlineEntry} (h : SameOptions args₁ args₂)
    (h' : SameOptions args₂ args₃) : SameOptions args₁ args₃ := Eq.trans h h'

@[simp] theorem plain_setSeen (item : CmdlineEntry) : plain (setSeen item) = plain item := rfl

@[simp] theorem plain_addCmdlineArg (item : CmdlineEntry) (str : CString) :
    plain (addCmdlineArg item str) = plain item := by
  unfold addCmdlineArg
  split <;> split <;> rfl

theorem cb_eq_of_plain {item item' : CmdlineEntry} (h : plain item' = plain item) :
    item'.cb = item.cb :=
  have hcb : (plain item').cb = (plain item).cb := congrArg CmdlineEntry.cb h
  hcb

theorem args_eq_of_plain {item item' : CmdlineEntry} (h : plain item' = plain item) :
    item'.type.args = item.type.args :=
  have hargs : (plain item').type.args = (plain item).type.args :=
    congrArg (fun e => e.type.args) h
  hargs

theorem getElem?_of_findEntry {test : CmdlineEntry → Bool} {args : List CmdlineEntry} {i : ℕ}
    {item : CmdlineEntry} (h : findEntry test args = some (i, item)) : args[i]? = some item := by
  induction args generalizing i with
  | nil => cases h
  | cons first args ih =>
      rw [findEntry] at h
      split at h
      · cases h
        rfl
      · obtain ⟨⟨j, item'⟩, hfind, heq⟩ := Option.map_eq_some_iff.mp h
        cases heq
        exact ih hfind

theorem findEntry_congr {test : CmdlineEntry → Bool} (htest : ∀ item, test (plain item) = test item)
    {args args' : List CmdlineEntry} (h : SameOptions args args') {i : ℕ} {item : CmdlineEntry}
    (hfind : findEntry test args = some (i, item)) :
    ∃ item', findEntry test args' = some (i, item') ∧ plain item' = plain item := by
  induction args generalizing args' i with
  | nil => cases hfind
  | cons first args ih =>
      cases args' with
      | nil => cases h
      | cons first' args' =>
          obtain ⟨hfirst, hrest⟩ := List.cons.inj h
          have hsame : test first' = test first := by rw [← htest first', ← hfirst, htest first]
          rw [findEntry] at hfind ⊢
          rw [hsame]
          split at hfind
          · cases hfind
            exact ⟨first', by rw [if_pos ‹_›], hfirst.symm⟩
          · obtain ⟨⟨j, found⟩, hfound, heq⟩ := Option.map_eq_some_iff.mp hfind
            cases heq
            obtain ⟨item', hfind', hplain⟩ := ih hrest hfound
            exact ⟨item', by rw [if_neg ‹_›, hfind']; rfl, hplain⟩

theorem SameOptions.set {args : List CmdlineEntry} {i : ℕ} {item item' : CmdlineEntry}
    (hget : args[i]? = some item) (hplain : plain item' = plain item) :
    SameOptions args (args.set i item') := by
  obtain ⟨hlt, rfl⟩ := List.getElem?_eq_some_iff.mp hget
  have hmap : i < (args.map plain).length := by rwa [List.length_map]
  have hget' : (args.map plain)[i] = plain args[i] := List.getElem_map plain
  rw [SameOptions, List.map_set, hplain, ← hget', List.set_getElem_self]

theorem parseShortOption_sameOptions {next : Option CString} {args args' : List CmdlineEntry}
    {str : List UInt8} {consumed : Consumed}
    (h : parseShortOption next args str = .ok (args', consumed)) : SameOptions args args' := by
  induction str generalizing args with
  | nil =>
      rw [parseShortOption] at h
      split at h
      · cases h
      · split at h <;> cases h
        exact SameOptions.refl _
  | cons b str ih =>
      rw [parseShortOption] at h
      split at h
      · cases h
      · rename_i i item hfind
        have hget := getElem?_of_findEntry hfind
        split at h
        · cases h
        · cases h
          exact SameOptions.refl _
        · dsimp only at h
          split at h
          · split at h
            · cases h
              exact SameOptions.set hget (by simp)
            · split at h <;> cases h
              exact SameOptions.set hget (by simp)
          · split at h
            · cases h
              exact SameOptions.set hget (by simp)
            · exact (SameOptions.set hget (by simp)).trans (ih h)

theorem parseLongOption_sameOptions {next : Option CString} {args args' : List CmdlineEntry}
    {str : List UInt8} {consumed : Consumed}
    (h : parseLongOption next args str = .ok (args', consumed)) : SameOptions args args' := by
  rw [parseLongOption] at h
  split at h
  · cases h
  · rename_i i item hfind
    have hget := getElem?_of_findEntry hfind
    split at h
    · cases h
    · cases h
      exact SameOptions.refl _
    · dsimp only at h
      split at h
      · split at h
        · split at h <;> cases h
          exact SameOptions.set hget (by simp)
        · cases h
        · cases h
          exact SameOptions.set hget (by simp)
      · cases h
        exact SameOptions.set hget (by simp)

theorem parseElement_sameOptions {next : Option CString} {args args' : List CmdlineEntry}
    {ptr : CString} {consumed : Consumed}
    (h : parseElement next args ptr = .ok (args', consumed)) : SameOptions args args' := by
  rw [parseElement] at h
  split at h
  · exact parseLongOption_sameOptions h
  · exact parseShortOption_sameOptions h
  · rw [parseListItem] at h
    split at h
    · cases h
    · rename_i i item hfind
      cases h
      exact SameOptions.set (getElem?_of_findEntry hfind) (by simp)

theorem parseElements_sameOptions {next : Option CString} {args args' : List CmdlineEntry}
    {skip skip' : Bool} {cmds : List CString}
    (h : parseElements next args skip cmds = .ok (args', skip')) : SameOptions args args' := by
  induction cmds generalizing args skip with
  | nil =>
      cases h
      exact SameOptions.refl _
  | cons ptr cmds ih =>
      cases skip with
      | true => exact ih h
      | false =>
          simp only [parseElements, bind_eq_ok] at h
          obtain ⟨⟨mid, consumed⟩, helement, hrest⟩ := h
          have hmid := parseElement_sameOptions helement
          cases consumed with
          | nothing => cases hrest
          | element => exact hmid.trans (ih hrest)
          | withNext => exact hmid.trans (ih hrest)

/-! ## The element behind -/

/-- Either the element behind makes no difference, or it is consumed whatever it is. -/
def NextUnused {γ : Type} (parse : CString → Except Halt (List CmdlineEntry × γ)) (used : γ) :
    Prop :=
  ((∀ x y, parse x = parse y) ∧ ∀ x args', parse x ≠ .ok (args', used)) ∨
    ∀ x, ∃ args', parse x = .ok (args', used)

theorem nextUnused_const {γ : Type} {r : Except Halt (List CmdlineEntry × γ)} {used : γ}
    (h : ∀ args', r ≠ .ok (args', used)) : NextUnused (fun _ => r) used :=
  .inl ⟨fun _ _ => rfl, fun _ => h⟩

theorem parseShortOption_next (args : List CmdlineEntry) (str : List UInt8) :
    NextUnused (fun x => parseShortOption (some x) args str) .withNext := by
  induction str generalizing args with
  | nil =>
      simp only [parseShortOption]
      split
      · exact nextUnused_const (by simp)
      · split <;> exact nextUnused_const (by simp)
  | cons b str ih =>
      simp only [parseShortOption]
      split
      · exact nextUnused_const (by simp)
      · split
        · exact nextUnused_const (by simp)
        · exact nextUnused_const (by simp)
        · split
          · split
            · exact nextUnused_const (by simp)
            · exact .inr fun x => ⟨_, rfl⟩
          · split
            · exact nextUnused_const (by simp)
            · exact ih _

theorem parseLongOption_next (args : List CmdlineEntry) (str : List UInt8) :
    NextUnused (fun x => parseLongOption (some x) args str) .withNext := by
  simp only [parseLongOption]
  split
  · exact nextUnused_const (by simp)
  · split
    · exact nextUnused_const (by simp)
    · exact nextUnused_const (by simp)
    · split
      · split
        · exact .inr fun x => ⟨_, rfl⟩
        · exact nextUnused_const (by simp)
        · exact nextUnused_const (by simp)
      · exact nextUnused_const (by simp)

theorem parseElement_next (args : List CmdlineEntry) (ptr : CString) :
    NextUnused (fun x => parseElement (some x) args ptr) .withNext := by
  simp only [parseElement]
  split
  · exact parseLongOption_next args _
  · exact parseShortOption_next args _
  · simp only [parseListItem]
    split <;> exact nextUnused_const (by simp)

theorem parseElements_next (args : List CmdlineEntry) (skip : Bool) (cmds : List CString)
    (hskip : skip = true → cmds ≠ []) :
    NextUnused (fun x => parseElements (some x) args skip cmds) true := by
  induction cmds generalizing args skip with
  | nil =>
      cases skip with
      | true => exact absurd rfl (hskip rfl)
      | false => exact nextUnused_const (by simp)
  | cons ptr cmds ih =>
      cases skip with
      | true => exact ih args false (by simp)
      | false =>
          cases cmds with
          | nil =>
              -- the last of the elements: the one behind is its next
              simp only [parseElements, List.head?_nil, Option.none_or]
              rcases parseElement_next args ptr with ⟨hsame, hunused⟩ | hused
              · left
                refine ⟨fun x y => congrArg (· >>= _) (hsame x y), ?_⟩
                intro x args' h
                obtain ⟨⟨mid, consumed⟩, helement, hrest⟩ := bind_eq_ok.mp h
                cases consumed with
                | nothing => cases hrest
                | element => cases hrest
                | withNext => exact hunused x mid helement
              · right
                intro x
                obtain ⟨args', h⟩ := hused x
                exact ⟨args', congrArg (· >>= _) h⟩
          | cons ptr' cmds =>
              simp only [parseElements, List.head?_cons, Option.some_or]
              cases helement : parseElement (some ptr') args ptr with
              | error e => exact nextUnused_const (by simp)
              | ok r =>
                  obtain ⟨mid, consumed⟩ := r
                  cases consumed with
                  | nothing => exact nextUnused_const (by simp)
                  | element => exact ih mid false (by simp)
                  | withNext => exact ih mid true (by simp)

theorem parseElements_append (next : Option CString) (args : List CmdlineEntry) (skip : Bool)
    (pre post : List CString) :
    parseElements next args skip (pre ++ post) = (do
      let (args, skip) ← parseElements (post.head?.or next) args skip pre
      parseElements next args skip post) := by
  induction pre generalizing args skip with
  | nil => rfl
  | cons ptr pre ih =>
      cases skip with
      | true => exact ih args false
      | false =>
          have hnext : (pre ++ post).head?.or next = pre.head?.or (post.head?.or next) := by
            cases pre <;> rfl
          simp only [List.cons_append, parseElements, hnext]
          cases parseElement (pre.head?.or (post.head?.or next)) args ptr with
          | error e => rfl
          | ok r =>
              obtain ⟨mid, consumed⟩ := r
              cases consumed with
              | nothing => rfl
              | element => exact ih mid false
              | withNext => exact ih mid true

theorem exists_parse_of_not_takesNext {args : List CmdlineEntry} {pre : List CString}
    (h : ¬ TakesNext args pre) :
    ∃ r : Except Halt (List CmdlineEntry), (∀ args', r = .ok args' → SameOptions args args') ∧
      ∀ cmds, cmds ≠ [] →
        parseElements none args false (pre ++ cmds) =
          r >>= fun args' => parseElements none args' false cmds := by
  rcases parseElements_next args false pre (by simp) with ⟨hsame, hunused⟩ | hused
  · refine ⟨do
      let (args, _) ← parseElements (some CString.empty) args false pre
      .ok args, ?_, ?_⟩
    · intro args' hr
      obtain ⟨⟨mid, skip⟩, hmid, heq⟩ := bind_eq_ok.mp hr
      cases heq
      exact parseElements_sameOptions hmid
    · intro cmds hne
      obtain ⟨x, xs, rfl⟩ := List.exists_cons_of_ne_nil hne
      have hpre : parseElements (some x) args false pre =
          parseElements (some CString.empty) args false pre := hsame x CString.empty
      rw [parseElements_append, List.head?_cons, Option.some_or, hpre]
      cases hrun : parseElements (some CString.empty) args false pre with
      | error e => rfl
      | ok r =>
          obtain ⟨mid, skip⟩ := r
          cases skip with
          | true => exact absurd hrun (hunused CString.empty mid)
          | false => rfl
  · obtain ⟨args', hargs⟩ := hused CString.empty
    exact absurd ⟨CString.empty, args', hargs⟩ h

/-! ## Options with a value -/

theorem charInt_ne_zero {b : UInt8} (hb : b ≠ 0) : charInt b ≠ 0 := by
  have hne : b.toNat ≠ 0 := fun h => hb (UInt8.toNat_inj.mp h)
  have hlt := b.toNat_lt
  unfold charInt
  split <;> omega

theorem findEntry_append_cons {test : CmdlineEntry → Bool} {pre : List CmdlineEntry}
    {item : CmdlineEntry} (hpre : ∀ e ∈ pre, test e = false) (hitem : test item = true)
    (post : List CmdlineEntry) :
    findEntry test (pre ++ item :: post) = some (pre.length, item) := by
  induction pre with
  | nil => rw [List.nil_append, findEntry, if_pos hitem, List.length_nil]
  | cons first pre ih =>
      rw [List.forall_mem_cons] at hpre
      rw [List.cons_append, findEntry, if_neg (by simp [hpre.1]), ih hpre.2, List.length_cons]
      rfl

theorem parseElement_dash (next : Option CString) (args : List CmdlineEntry) (c : Letter)
    (text : CString) :
    parseElement next args (c.dash text) = parseShortOption next args (c.byte :: text.bytes) := by
  have hne := c.ne_dash
  simp only [parseElement, Letter.dash]
  split
  · rename_i heq
    exact absurd (List.cons.inj (List.cons.inj heq).2).1 hne
  · rename_i heq
    rw [(List.cons.inj heq).2]
  · rename_i _ hshort
    exact absurd rfl (hshort _)

theorem parseElement_dashDash (next : Option CString) (args : List CmdlineEntry)
    (text : CString) :
    parseElement next args (dashDash text) = parseLongOption next args text.bytes := rfl

/-- The entry at a place of the table takes a value, by its letter and by its long name. -/
structure TakesValue (args : List CmdlineEntry) (c : Letter) (longName : CString) (i : ℕ)
    (item : CmdlineEntry) : Prop where
  letter : getShortOpt args (charInt c.byte) = some (i, item)
  longName : getLongOpt args longName = some (i, item)
  cb : item.cb = none
  args : item.type.args = true

section Value

variable {args args' : List CmdlineEntry} {c : Letter} {longName v : CString} {i : ℕ}
variable {item : CmdlineEntry}

theorem TakesValue.of_sameOptions (h : TakesValue args c longName i item)
    (hsame : SameOptions args args') : ∃ item', TakesValue args' c longName i item' := by
  obtain ⟨item', hletter, hplain⟩ := findEntry_congr (by intro; rfl) hsame h.letter
  obtain ⟨item'', hlong, -⟩ := findEntry_congr (by intro; rfl) hsame h.longName
  have hitem : item'' = item' := Option.some.inj
    ((getElem?_of_findEntry hlong).symm.trans (getElem?_of_findEntry hletter))
  exact ⟨item', hletter, hitem ▸ hlong, (cb_eq_of_plain hplain).trans h.cb,
    (args_eq_of_plain hplain).trans h.args⟩

theorem TakesValue.parseShortOption (h : TakesValue args c longName i item)
    (next : Option CString) {str : List UInt8} {arg : CString}
    (harg : shortArgument str = some arg) :
    parseShortOption next args (c.byte :: str) =
      .ok (args.set i (addCmdlineArg (setSeen item) arg), .element) := by
  have hargs : (setSeen item).type.args = true := h.args
  simp only [Cmdline.parseShortOption, h.letter, h.cb, hargs, if_true, harg]

theorem TakesValue.parseShortOption_next (h : TakesValue args c longName i item) (arg : CString) :
    Cmdline.parseShortOption (some arg) args [c.byte] =
      .ok (args.set i (addCmdlineArg (setSeen item) arg), .withNext) := by
  have hargs : (setSeen item).type.args = true := h.args
  simp only [Cmdline.parseShortOption, h.letter, h.cb, hargs, if_true, shortArgument]

theorem shortArgument_equals (hv : v.bytes ≠ []) :
    shortArgument (equalsText v).bytes = some v := by
  obtain ⟨b, str, hbytes⟩ := List.exists_cons_of_ne_nil hv
  simp only [equalsText, hbytes, shortArgument]
  rw [← hbytes, CString.read_bytes]

theorem shortArgument_joined (hv : v.bytes ≠ []) (hhead : v.bytes.head? ≠ some 61) :
    shortArgument v.bytes = some v := by
  obtain ⟨b, str, hbytes⟩ := List.exists_cons_of_ne_nil hv
  rw [hbytes, List.head?_cons] at hhead
  have hb : b ≠ 61 := fun heq => hhead (congrArg some heq)
  have hread := CString.read_bytes v
  rw [hbytes] at hread ⊢
  rw [shortArgument, hread]
  · simp
  · rintro b' str' heq
    exact hb (List.cons.inj heq).1

theorem takeWhile_longName (hname : 61 ∉ longName.bytes) (rest : List UInt8) :
    (longName.bytes ++ 61 :: rest).takeWhile (· ≠ 61) = longName.bytes ∧
      (longName.bytes ++ 61 :: rest).dropWhile (· ≠ 61) = 61 :: rest := by
  have hall : ∀ b ∈ longName.bytes, decide (b ≠ 61) = true := by
    intro b hb
    rw [decide_eq_true_eq]
    rintro rfl
    exact hname hb
  constructor
  · rw [List.takeWhile_append_of_pos hall]
    simp
  · rw [List.dropWhile_append_of_pos hall]
    simp

theorem TakesValue.parseElements (h : TakesValue args c longName i item)
    (hname : 61 ∉ longName.bytes) (hv : v.bytes ≠ []) {s : List CString}
    (hs : Spelling c longName v s) (post : List CString) :
    parseElements none args false (s ++ post) =
      parseElements none (args.set i (addCmdlineArg (setSeen item) v)) false post := by
  have hargs : (setSeen item).type.args = true := h.args
  cases hs with
  | letterNext =>
      simp only [List.cons_append, List.nil_append, Cmdline.parseElements, List.head?_cons,
        Option.some_or, parseElement_dash]
      rw [show CString.empty.bytes = [] from rfl, h.parseShortOption_next v]
      rfl
  | letterEquals =>
      simp only [List.cons_append, List.nil_append, Cmdline.parseElements, parseElement_dash]
      rw [h.parseShortOption _ (shortArgument_equals hv)]
      rfl
  | letterJoined hhead =>
      simp only [List.cons_append, List.nil_append, Cmdline.parseElements, parseElement_dash]
      rw [h.parseShortOption _ (shortArgument_joined hv hhead)]
      rfl
  | longNext =>
      have hall : ∀ b ∈ longName.bytes, decide (b ≠ 61) = true := by
        intro b hb
        rw [decide_eq_true_eq]
        rintro rfl
        exact hname hb
      have hparse : parseLongOption (some v) args longName.bytes =
          .ok (args.set i (addCmdlineArg (setSeen item) v), .withNext) := by
        simp only [parseLongOption, List.takeWhile_eq_self_iff.mpr hall,
          List.dropWhile_eq_nil_iff.mpr hall, CString.read_bytes, h.longName, h.cb, hargs, if_true]
      simp only [List.cons_append, List.nil_append, Cmdline.parseElements, List.head?_cons,
        Option.some_or, parseElement_dashDash, hparse]
      rfl
  | longEquals =>
      obtain ⟨htake, hdrop⟩ := takeWhile_longName hname v.bytes
      have hbytes : (longName.append (equalsText v)).bytes = longName.bytes ++ 61 :: v.bytes := rfl
      have hparse (next : Option CString) :
          parseLongOption next args (longName.append (equalsText v)).bytes =
            .ok (args.set i (addCmdlineArg (setSeen item) v), .element) := by
        simp only [parseLongOption, hbytes, htake, hdrop, CString.read_bytes, h.longName, h.cb, hargs,
          if_true]
      simp only [List.cons_append, List.nil_append, Cmdline.parseElements, parseElement_dashDash,
        hparse]
      rfl

end Value

/-! ## Bundles -/

def IsSwitch (args : List CmdlineEntry) (c : Letter) : Prop :=
  ∃ i item, getShortOpt args (charInt c.byte) = some (i, item) ∧ item.cb = none ∧
    item.type.args = false

theorem IsSwitch.of_sameOptions {args args' : List CmdlineEntry} {c : Letter}
    (h : IsSwitch args c) (hsame : SameOptions args args') : IsSwitch args' c := by
  obtain ⟨i, item, hfind, hcb, hargs⟩ := h
  obtain ⟨item', hfind', hplain⟩ := findEntry_congr (by intro; rfl) hsame hfind
  exact ⟨i, item', hfind', (cb_eq_of_plain hplain).trans hcb,
    (args_eq_of_plain hplain).trans hargs⟩

theorem IsSwitch.parseShortOption {args : List CmdlineEntry} {c : Letter} (h : IsSwitch args c) :
    ∃ args', SameOptions args args' ∧
      (∀ next, parseShortOption next args [c.byte] = .ok (args', .element)) ∧
      ∀ next b str, Cmdline.parseShortOption next args (c.byte :: b :: str) =
        Cmdline.parseShortOption next args' (b :: str) := by
  obtain ⟨i, item, hfind, hcb, hargs⟩ := h
  have hseen : (setSeen item).type.args = false := hargs
  refine ⟨args.set i (setSeen item), ?_, ?_, ?_⟩
  · exact SameOptions.set (getElem?_of_findEntry hfind) (plain_setSeen item)
  · intro next
    simp [Cmdline.parseShortOption, hfind, hcb, hseen]
  · intro next b str
    rw [Cmdline.parseShortOption]
    simp [hfind, hcb, hseen]

theorem parseElement_bundle (next : Option CString) (args : List CmdlineEntry) (c : Letter)
    (letters : List Letter) :
    parseElement next args (bundle (c :: letters)) =
      parseShortOption next args ((c :: letters).map Letter.byte) := by
  have htext : 0 ∉ letters.map Letter.byte := by
    simp only [List.mem_map, not_exists, not_and]
    exact fun c _ => c.ne_nul
  exact parseElement_dash next args c ⟨letters.map Letter.byte, htext⟩

theorem parseElements_letters {args : List CmdlineEntry} {letters : List Letter} (last : Letter)
    (h : ∀ c ∈ letters, IsSwitch args c) (post : List CString) :
    parseElements none args false ((letters ++ [last]).map (Letter.dash · CString.empty) ++ post) =
      (do
        let (args, consumed) ←
          parseShortOption (post.head?.or none) args ((letters ++ [last]).map Letter.byte)
        match consumed with
        | .nothing => .error .diverges
        | .element => parseElements none args false post
        | .withNext => parseElements none args true post) := by
  induction letters generalizing args with
  | nil =>
      simp only [List.nil_append, List.map_cons, List.map_nil, List.cons_append, parseElements,
        parseElement_dash]
      rfl
  | cons c letters ih =>
      rw [List.forall_mem_cons] at h
      obtain ⟨args', hsame, halone, hfront⟩ := h.1.parseShortOption
      have hrest := ih fun c' hc' => (h.2 c' hc').of_sameOptions hsame
      obtain ⟨b, str, hstr⟩ : ∃ b str, (letters ++ [last]).map Letter.byte = b :: str :=
        List.exists_cons_of_ne_nil (by simp)
      rw [List.cons_append, List.map_cons, List.map_cons, List.cons_append, hstr, hfront, ← hstr,
        ← hrest, parseElements, parseElement_dash]
      rw [show CString.empty.bytes = [] from rfl, halone]
      rfl

theorem parseElements_bundle {args : List CmdlineEntry} {letters : List Letter} (last : Letter)
    (h : ∀ c ∈ letters, IsSwitch args c) (post : List CString) :
    parseElements none args false (bundle (letters ++ [last]) :: post) =
      parseElements none args false
        ((letters ++ [last]).map (Letter.dash · CString.empty) ++ post) := by
  obtain ⟨c, cs, hcs⟩ : ∃ c cs, letters ++ [last] = c :: cs :=
    List.exists_cons_of_ne_nil (by simp)
  rw [parseElements_letters last h post, hcs, ← parseElement_bundle]
  rfl

/-! ## Places of the command line -/

section Places

variable {table vars : List CmdlineEntry} {c : Letter}

theorem UniqueOptions.getShortOpt (h : UniqueOptions table) {pre post : List CmdlineEntry}
    {opt : CmdlineEntry} (hsplit : table = pre ++ opt :: post)
    (hletter : opt.shortOpt = charInt c.byte) :
    getShortOpt (table ++ vars) (charInt c.byte) = some (pre.length, opt) := by
  have hletters := h.letters
  rw [hsplit, List.pairwise_append] at hletters
  rw [hsplit, List.append_assoc, List.cons_append, Cmdline.getShortOpt]
  apply findEntry_append_cons
  · intro e he
    rw [decide_eq_false_iff_not]
    intro heq
    have hzero := hletters.2.2 e he opt List.mem_cons_self (heq.trans hletter.symm)
    exact charInt_ne_zero c.ne_nul (heq.symm.trans hzero)
  · simpa using hletter

theorem UniqueOptions.getLongOpt (h : UniqueOptions table) {pre post : List CmdlineEntry}
    {opt : CmdlineEntry} (hsplit : table = pre ++ opt :: post) {longName : CString}
    (hlong : opt.longOpt = some longName) :
    getLongOpt (table ++ vars) longName = some (pre.length, opt) := by
  have hlongs := h.longNames
  rw [hsplit, List.pairwise_append] at hlongs
  rw [hsplit, List.append_assoc, List.cons_append, Cmdline.getLongOpt]
  apply findEntry_append_cons
  · intro e he
    rw [decide_eq_false_iff_not]
    intro heq
    have hnone := hlongs.2.2 e he opt List.mem_cons_self (heq.trans hlong.symm)
    cases heq.symm.trans hnone
  · simpa using hlong

theorem parseCmdline_congr {env : List CString} {prog : CString} {pre s s' post : List CString}
    (hplace : ∀ vars, storeEnvironment env = .ok vars → ¬ TakesNext (table ++ vars) pre)
    (hs : s ≠ []) (hs' : s' ≠ [])
    (hsame : ∀ vars args, SameOptions (table ++ vars) args →
      parseElements none args false (s ++ post) = parseElements none args false (s' ++ post)) :
    parseCmdline table env (prog :: (pre ++ s ++ post)) =
      parseCmdline table env (prog :: (pre ++ s' ++ post)) := by
  unfold parseCmdline
  cases henv : storeEnvironment env with
  | error e => rfl
  | ok vars =>
      obtain ⟨r, hr, hparse⟩ := exists_parse_of_not_takesNext (hplace vars henv)
      have hloop : parseElements none (table ++ vars) false (pre ++ s ++ post) =
          parseElements none (table ++ vars) false (pre ++ s' ++ post) := by
        rw [List.append_assoc, List.append_assoc, hparse _ (by simp [hs]),
          hparse _ (by simp [hs'])]
        cases r with
        | error e => rfl
        | ok args => exact hsame vars args (hr args rfl)
      simp only [ok_bind, List.tail_cons, hloop]

end Places

/-- From a place where the loop begins a new element, all spellings of an
option with its value lead to the same result, and so do a bundle of letters,
all but the last without argument and callback, and its letters apart. -/
theorem spellings_agree (table : List CmdlineEntry) (env : List CString) (prog : CString)
    (pre post : List CString) (hunique : UniqueOptions table)
    (hplace : ∀ vars, storeEnvironment env = .ok vars → ¬ TakesNext (table ++ vars) pre) :
    (∀ opt ∈ table, ∀ (c : Letter) (longName v : CString), opt.shortOpt = charInt c.byte →
      opt.longOpt = some longName → 61 ∉ longName.bytes → opt.cb = none →
      opt.type.args = true → v.bytes ≠ [] →
      ∀ s s', Spelling c longName v s → Spelling c longName v s' →
        parseCmdline table env (prog :: (pre ++ s ++ post)) =
          parseCmdline table env (prog :: (pre ++ s' ++ post))) ∧
    ∀ (letters : List Letter) (last : Letter),
      (∀ c ∈ letters, ∃ opt ∈ table, opt.shortOpt = charInt c.byte ∧ opt.cb = none ∧
        opt.type.args = false) →
      parseCmdline table env (prog :: (pre ++ [bundle (letters ++ [last])] ++ post)) =
        parseCmdline table env (prog :: (pre ++
          (letters ++ [last]).map (Letter.dash · CString.empty) ++ post)) := by
  constructor
  · intro opt hopt c longName v hletter hlong hname hcb hargs hv s s' hs hs'
    obtain ⟨front, back, hsplit⟩ := List.append_of_mem hopt
    have hne {s : List CString} (hs : Spelling c longName v s) : s ≠ [] := by
      cases hs <;> exact List.cons_ne_nil _ _
    apply parseCmdline_congr hplace (hne hs) (hne hs')
    intro vars args hsame
    have htakes : TakesValue (table ++ vars) c longName front.length opt :=
      ⟨hunique.getShortOpt hsplit hletter, hunique.getLongOpt hsplit hlong, hcb, hargs⟩
    obtain ⟨item, htakes⟩ := htakes.of_sameOptions hsame
    rw [htakes.parseElements hname hv hs, htakes.parseElements hname hv hs']
  · intro letters last hletters
    apply parseCmdline_congr hplace (List.cons_ne_nil _ _) (by simp)
    intro vars args hsame
    apply parseElements_bundle
    intro c hc
    obtain ⟨opt, hopt, hletter, hcb, hargs⟩ := hletters c hc
    obtain ⟨front, back, hsplit⟩ := List.append_of_mem hopt
    have hswitch : IsSwitch (table ++ vars) c :=
      ⟨front.length, opt, hunique.getShortOpt hsplit hletter, hcb, hargs⟩
    exact hswitch.of_sameOptions hsame

/-- `-L a` stands in front and `f` behind: `-v 3` is `--verbosity=3`, and `-xv` is `-x -v`. -/
theorem spellings_agree_createConfig :
    parseCmdline createConfig [] [CString.read [116], CString.read [45, 76], CString.read [97],
        CString.read [45, 118], CString.read [51], CString.read [102]] =
      parseCmdline createConfig [] [CString.read [116], CString.read [45, 76], CString.read [97],
        CString.read [45, 45, 118, 101, 114, 98, 111, 115, 105, 116, 121, 61, 51],
        CString.read [102]] ∧
    parseCmdline createConfig [] [CString.read [116], CString.read [45, 76], CString.read [97],
        CString.read [45, 120, 118], CString.read [102]] =
      parseCmdline createConfig [] [CString.read [116], CString.read [45, 76], CString.read [97],
        CString.read [45, 120], CString.read [45, 118], CString.read [102]] := by
  have hplace : ∀ vars, storeEnvironment [] = .ok vars →
      ¬ TakesNext (createConfig ++ vars) [CString.read [45, 76], CString.read [97]] := by
    intro vars henv
    obtain rfl := Except.ok.inj henv
    rintro ⟨next, args', hrun⟩
    cases hrun
  obtain ⟨hspell, hbundle⟩ := spellings_agree createConfig [] (CString.read [116])
    [CString.read [45, 76], CString.read [97]] [CString.read [102]]
    ⟨by decide, by decide⟩ hplace
  constructor
  · exact hspell _ List.mem_cons_self ⟨118, by decide, by decide⟩
      (CString.read [118, 101, 114, 98, 111, 115, 105, 116, 121]) (CString.read [51]) rfl rfl
      (by decide) rfl rfl (by decide) _ _ .letterNext .longEquals
  · apply hbundle [⟨120, by decide, by decide⟩] ⟨118, by decide, by decide⟩
    intro c hc
    obtain rfl := List.mem_singleton.mp hc
    exact ⟨_, List.mem_cons_of_mem _ List.mem_cons_self, rfl, rfl, rfl⟩

/-- Not so at every place: behind `-L`, which takes the next element, `-v 3`
gives up its letter only and `-v=3` all of it. -/
theorem not_spellings_agree_everywhere :
    ¬ ∀ (table : List CmdlineEntry) (env : List CString) (prog : CString)
      (pre post : List CString), UniqueOptions table →
        ∀ opt ∈ table, ∀ (c : Letter) (longName v : CString), opt.shortOpt = charInt c.byte →
          opt.longOpt = some longName → 61 ∉ longName.bytes → opt.cb = none →
          opt.type.args = true → v.bytes ≠ [] →
          ∀ s s', Spelling c longName v s → Spelling c longName v s' →
            parseCmdline table env (prog :: (pre ++ s ++ post)) =
              parseCmdline table env (prog :: (pre ++ s' ++ post)) := by
  intro h
  have hsame := h createConfig [] (CString.read [116]) [CString.read [45, 76]]
    [CString.read [102]] ⟨by decide, by decide⟩ _ List.mem_cons_self
    ⟨118, by decide, by decide⟩ (CString.read [118, 101, 114, 98, 111, 115, 105, 116, 121])
    (CString.read [51]) rfl rfl (by decide) rfl rfl (by decide) _ _ .letterNext .letterEquals
  exact absurd hsame (by decide)

end SimpleVm.Cmdline
