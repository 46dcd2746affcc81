import SimpleVm.Common.CmdlineEnvironment

/-!
# The loop over the command line

The parsers as they walk: a shared index into `argv`, another one into the
text of the element, which is read a character at a time, and a pointer that
is replaced midway by the element behind, or by `NULL`. What they do to the
table and how far they move on is what the parsers of single elements say.
-/

namespace SimpleVm.CmdlineLoop

open Cmdline

/-! ## The source -/

/-- `cmdline->args`, `cmds` and `cmds_idx`; `max_cmds_idx` is the length of `cmds`. -/
structure Parser where
  args : List CmdlineEntry
  cmds : List CString
  cmdsIdx : ℕ

/-- `str[idx]` -/
def charAt (str : Option CString) (idx : ℕ) : Except Halt UInt8 :=
  match str with
  | none => .error .invalidAccess
  | some str =>
      match (str.bytes ++ [0])[idx]? with
      | some ch => .ok ch
      | none => .error .invalidAccess

/-- The string at `&str[idx]`. -/
def textAt (str : CString) (idx : ℕ) : CString := CString.read (str.bytes.drop idx)

def getCmd (st : Parser) : Option CString :=
  if st.cmds.length ≤ st.cmdsIdx then none else st.cmds[st.cmdsIdx]?

def advance (st : Parser) : Parser :=
  if st.cmdsIdx < st.cmds.length then { st with cmdsIdx := st.cmdsIdx + 1 } else st

def consumeCmd (st : Parser) : Option CString × Parser := (getCmd (advance st), advance st)

def setItem (st : Parser) (i : ℕ) (item : CmdlineEntry) : Parser :=
  { st with args := st.args.set i item }

/-- `(*item->cb)()`, and the parser returns. -/
def callBack : Callback → Parser → Except Halt Parser
  | .exits, _ => .error .exit
  | .returns, st => .ok st

/-- An option that takes an argument, with its letter at `idx`. -/
def shortArg (st : Parser) (i : ℕ) (item : CmdlineEntry) (str : CString) (idx : ℕ) :
    Except Halt Parser := do
  let ch₁ ← charAt (some str) (idx + 1)
  let ch₂ ← if ch₁ = 61 then charAt (some str) (idx + 2) else .ok 0
  if ch₁ = 61 ∧ ch₂ ≠ 0 then
    .ok (consumeCmd (setItem st i (addCmdlineArg item (textAt str (idx + 2))))).2
  else if ch₁ ≠ 0 then
    .ok (consumeCmd (setItem st i (addCmdlineArg item (textAt str (idx + 1))))).2
  else
    let (str, st) := consumeCmd st
    match str with
    | some arg => .ok (consumeCmd (setItem st i (addCmdlineArg item arg))).2
    | none => do
        -- the message that an argument is required prints the letter
        let _ ← charAt str idx
        .error .exit

/-- The loop of `parse_short_option`; `fuel` bounds its rounds. -/
def shortLoop (str : CString) : ℕ → Parser → ℕ → Except Halt Parser
  | 0, _, _ => .error .diverges
  | fuel + 1, st, idx => do
      let ch ← charAt (some str) idx
      match getShortOpt st.args (charInt ch) with
      | none => .error .exit
      | some (i, item) =>
          match item.cb with
          | some cb => callBack cb st
          | none => do
              let item := setSeen item
              if item.type.args then shortArg st i item str idx
              else do
                let ch ← charAt (some str) (idx + 1)
                if ch = 0 then .ok (consumeCmd (setItem st i item)).2
                else shortLoop str fuel (setItem st i item) (idx + 1)

def parseShortOption (st : Parser) (str : CString) : Except Halt Parser :=
  shortLoop str (str.strlen + 1) st 0

/-- The text is copied, and the copy cut at its first `=`. -/
def parseLongOption (st : Parser) (str : CString) : Except Halt Parser :=
  match getLongOpt st.args (CString.read (str.bytes.takeWhile (· ≠ 61))) with
  | none => .error .exit
  | some (i, item) =>
      match item.cb with
      | some cb => callBack cb st
      | none =>
          let item := setSeen item
          if item.type.args then
            match str.bytes.dropWhile (· ≠ 61) with
            | [] =>
                let (str, st) := consumeCmd st
                match str with
                | some arg => .ok (consumeCmd (setItem st i (addCmdlineArg item arg))).2
                | none => .error .exit
            | [_] => .error .exit
            | _ :: arg => .ok (consumeCmd (setItem st i (addCmdlineArg item (CString.read arg)))).2
          else .ok (consumeCmd (setItem st i item)).2

def parseListItem (st : Parser) (str : CString) : Except Halt Parser :=
  match findEntry (fun item => item.type.anon) st.args with
  | none => .error .exit
  | some (i, item) => .ok (consumeCmd (setItem st i (setSeen (addCmdlineArg item str)))).2

/-- One iteration, at the element `ptr`. -/
def iteration (st : Parser) (ptr : CString) : Except Halt Parser := do
  let ch ← charAt (some ptr) 0
  if ch = 45 then do
    let ch ← charAt (some ptr) 1
    if ch = 45 then parseLongOption st (textAt ptr 2) else parseShortOption st (textAt ptr 1)
  else parseListItem st ptr

/-- The loop of `parse_cmdline`, for at most so many iterations. -/
def loop : ℕ → Parser → Except Halt Parser
  | iterations, st =>
      match getCmd st with
      | none => .ok st
      | some ptr =>
          match iterations with
          | 0 => .error .diverges
          | iterations + 1 => do
              let st ← iteration st ptr
              loop iterations st

/-- The name of the program is discarded. -/
def start (args : List CmdlineEntry) (argv : List CString) : Parser :=
  (consumeCmd ⟨args, argv, 0⟩).2

/-! ## What is left of the command line -/

def rest (st : Parser) : List CString := st.cmds.drop st.cmdsIdx

/-- Where the parsers leave the loop. -/
def moveOn (st : Parser) (args : List CmdlineEntry) : Consumed → Parser
  | .nothing => { st with args := args }
  | .element => advance { st with args := args }
  | .withNext => advance (advance { st with args := args })

theorem getCmd_eq_head? (st : Parser) : getCmd st = (rest st).head? := by
  rw [getCmd, rest, List.head?_drop]
  split
  · next hend => rw [List.getElem?_eq_none hend]
  · rfl

theorem rest_advance (st : Parser) : rest (advance st) = (rest st).tail := by
  unfold advance rest
  split
  · rw [List.tail_drop]
  · next hend => 
      have hnil : st.cmds.drop st.cmdsIdx = [] := List.drop_of_length_le (Nat.not_lt.mp hend)
      rw [hnil, List.tail_nil]

@[simp] theorem args_advance (st : Parser) : (advance st).args = st.args := by
  unfold advance
  split <;> rfl

@[simp] theorem cmds_advance (st : Parser) : (advance st).cmds = st.cmds := by
  unfold advance
  split <;> rfl

theorem advance_setItem (st : Parser) (i : ℕ) (item : CmdlineEntry) :
    advance (setItem st i item) = setItem (advance st) i item := by
  unfold advance setItem
  split <;> rfl

theorem moveOn_withNext (st : Parser) (i : ℕ) (item : CmdlineEntry) :
    (consumeCmd (setItem (advance st) i item)).2 = moveOn st (st.args.set i item) .withNext := by
  rw [← advance_setItem]
  rfl

theorem getCmd_advance_setItem (st : Parser) (i : ℕ) (item : CmdlineEntry) :
    getCmd (advance (setItem st i item)) = getCmd (advance st) := by
  rw [advance_setItem]
  rfl

theorem moveOn_setItem (st : Parser) (i : ℕ) (item : CmdlineEntry) (args : List CmdlineEntry)
    (consumed : Consumed) : moveOn (setItem st i item) args consumed = moveOn st args consumed := by
  cases consumed <;> rfl

@[simp] theorem args_moveOn (st : Parser) (args : List CmdlineEntry) (consumed : Consumed) :
    (moveOn st args consumed).args = args := by
  cases consumed with
  | nothing => rfl
  | element => exact args_advance _
  | withNext => exact (args_advance _).trans (args_advance _)

@[simp] theorem cmds_moveOn (st : Parser) (args : List CmdlineEntry) (consumed : Consumed) :
    (moveOn st args consumed).cmds = st.cmds := by
  cases consumed with
  | nothing => rfl
  | element => exact cmds_advance _
  | withNext => exact (cmds_advance _).trans (cmds_advance _)

theorem rest_moveOn_element (st : Parser) (args : List CmdlineEntry) :
    rest (moveOn st args .element) = (rest st).tail := rest_advance { st with args := args }

theorem rest_moveOn_withNext (st : Parser) (args : List CmdlineEntry) :
    rest (moveOn st args .withNext) = (rest st).tail.tail := by
  rw [moveOn, rest_advance, rest_advance]
  rfl

theorem rest_start (args : List CmdlineEntry) (argv : List CString) :
    rest (start args argv) = argv.tail := rest_advance ⟨args, argv, 0⟩

theorem args_start (args : List CmdlineEntry) (argv : List CString) :
    (start args argv).args = args := args_advance ⟨args, argv, 0⟩

/-! ## One element -/

/-- The result of a parser of single elements, where the loop goes on. -/
def movedOn (st : Parser) (r : Except Halt (List CmdlineEntry × Consumed)) : Except Halt Parser :=
  r.map fun r => moveOn st r.1 r.2

section Walk

variable {str : CString} {idx : ℕ} {l : List UInt8} (hdrop : str.bytes.drop idx = l)
  (hidx : idx ≤ str.strlen)

include hdrop hidx

theorem getElem?_walk (k : ℕ) : (str.bytes ++ [0])[idx + k]? = (l ++ [0])[k]? := by
  have hbytes : str.bytes = str.bytes.take idx ++ l := by
    rw [← hdrop, List.take_append_drop]
  have hlength : (str.bytes.take idx).length = idx := List.length_take_of_le hidx
  rw [hbytes, List.append_assoc, List.getElem?_append_right (by omega), hlength,
    Nat.add_sub_cancel_left]

theorem charAt_walk {k : ℕ} {ch : UInt8} (hch : (l ++ [0])[k]? = some ch) :
    charAt (some str) (idx + k) = .ok ch := by
  rw [charAt]
  simp only [getElem?_walk hdrop hidx, hch]

theorem charAt_behind {k : ℕ} (hk : (l ++ [0])[k]? = none) :
    charAt (some str) (idx + k) = .error .invalidAccess := by
  rw [charAt]
  simp only [getElem?_walk hdrop hidx, hk]

end Walk

theorem textAt_walk {str : CString} {idx k : ℕ} {l : List UInt8}
    (hdrop : str.bytes.drop idx = l) : textAt str (idx + k) = CString.read (l.drop k) := by
  rw [textAt, ← List.drop_drop, hdrop]

section ShortArg

variable (st : Parser) (i : ℕ) (item : CmdlineEntry) {str : CString} {idx : ℕ} {b : UInt8}
  {l : List UInt8} (hdrop : str.bytes.drop idx = b :: l) (hidx : idx ≤ str.strlen)

include hdrop hidx

theorem shortArg_text {arg : CString} (harg : shortArgument l = some arg) :
    shortArg st i item str idx =
      .ok (moveOn st (st.args.set i (addCmdlineArg item arg)) .element) := by
  have hnul : 0 ∉ l := fun hmem =>
    str.nul_notMem (List.mem_of_mem_drop (hdrop ▸ List.mem_cons_of_mem b hmem))
  have htext : textAt str (idx + 1) = CString.read l := textAt_walk hdrop
  have hbehind : textAt str (idx + 2) = CString.read l.tail := by
    rw [textAt_walk hdrop, List.drop_succ_cons, List.drop_one]
  rw [shortArg]
  cases l with
  | nil => cases harg
  | cons c l =>
      have hc : c ≠ 0 := fun h => hnul (h ▸ List.mem_cons_self)
      have hfirst : charAt (some str) (idx + 1) = .ok c := charAt_walk hdrop hidx rfl
      rw [hfirst, ok_bind]
      by_cases heq : c = 61
      · subst heq
        cases l with
        | nil =>
            have hlone : shortArgument [61] = some (CString.read [61]) := rfl
            obtain rfl := Option.some.inj (hlone.symm.trans harg)
            have hend : charAt (some str) (idx + 2) = .ok 0 := charAt_walk hdrop hidx rfl
            rw [if_pos rfl, hend, ok_bind]
            dsimp only
            rw [if_neg fun h => h.2 rfl, if_pos hc, htext]
            rfl
        | cons d l =>
            have hd : d ≠ 0 := fun h => hnul (h ▸ List.mem_cons_of_mem 61 List.mem_cons_self)
            obtain rfl := Option.some.inj (show some (CString.read (d :: l)) = some arg from harg)
            have hnext : charAt (some str) (idx + 2) = .ok d := charAt_walk hdrop hidx rfl
            rw [if_pos rfl, hnext, ok_bind]
            dsimp only
            rw [if_pos ⟨rfl, hd⟩, hbehind]
            rfl
      · have hplain : shortArgument (c :: l) = some (CString.read (c :: l)) := by
          rw [shortArgument]
          · simp
          · rintro d ds hcons
            exact heq (List.cons.inj hcons).1
        obtain rfl := Option.some.inj (hplain.symm.trans harg)
        rw [if_neg heq, ok_bind]
        dsimp only
        rw [if_neg fun h => heq h.1, if_pos hc, htext]
        rfl

theorem shortArg_next (hnil : l = []) {arg : CString} (hnext : getCmd (advance st) = some arg) :
    shortArg st i item str idx =
      .ok (moveOn st (st.args.set i (addCmdlineArg item arg)) .withNext) := by
  subst hnil
  have hend : charAt (some str) (idx + 1) = .ok 0 := charAt_walk hdrop hidx rfl
  rw [shortArg, hend, ok_bind, if_neg (by decide), ok_bind]
  dsimp only
  rw [if_neg fun h => h.2 rfl, if_neg fun h => h rfl]
  simp only [consumeCmd, hnext]
  exact congrArg Except.ok (moveOn_withNext st i (addCmdlineArg item arg))

/-- The message reads through `NULL`. -/
theorem shortArg_end (hnil : l = []) (hnext : getCmd (advance st) = none) :
    shortArg st i item str idx = .error .invalidAccess := by
  subst hnil
  have hend : charAt (some str) (idx + 1) = .ok 0 := charAt_walk hdrop hidx rfl
  rw [shortArg, hend, ok_bind, if_neg (by decide), ok_bind]
  dsimp only
  rw [if_neg fun h => h.2 rfl, if_neg fun h => h rfl]
  simp only [consumeCmd, hnext]
  rfl

end ShortArg

theorem movedOn_setItem (st : Parser) (i : ℕ) (item : CmdlineEntry)
    (r : Except Halt (List CmdlineEntry × Consumed)) :
    movedOn (setItem st i item) r = movedOn st r := by
  cases r with
  | error e => rfl
  | ok r => exact congrArg Except.ok (moveOn_setItem st i item r.1 r.2)

/-- The argument is found where the recursion finds it. -/
theorem shortArg_eq {st : Parser} {i : ℕ} {item : CmdlineEntry} {str : CString} {idx : ℕ}
    {b : UInt8} {l : List UInt8} (hdrop : str.bytes.drop idx = b :: l) (hidx : idx ≤ str.strlen)
    (hfind : getShortOpt st.args (charInt b) = some (i, item)) (hcb : item.cb = none)
    (hargs : (setSeen item).type.args = true) :
    shortArg st i (setSeen item) str idx =
      movedOn st (Cmdline.parseShortOption (getCmd (advance st)) st.args (b :: l)) := by
  have hnul : 0 ∉ l := fun hmem =>
    str.nul_notMem (List.mem_of_mem_drop (hdrop ▸ List.mem_cons_of_mem b hmem))
  rcases shortArgument_cases hnul with ⟨hnil, hnone⟩ | ⟨v, hsome, -⟩
  · cases hnext : getCmd (advance st) with
    | some arg =>
        rw [shortArg_next st i _ hdrop hidx hnil hnext]
        simp only [Cmdline.parseShortOption, hfind, hcb, hargs, if_true, hnone]
        rfl
    | none =>
        rw [shortArg_end st i _ hdrop hidx hnil hnext]
        simp only [Cmdline.parseShortOption, hfind, hcb, hargs, if_true, hnone]
        rfl
  · rw [shortArg_text st i _ hdrop hidx hsome]
    simp only [Cmdline.parseShortOption, hfind, hcb, hargs, if_true, hsome]
    rfl

/-- The walk from `idx` on is the recursion over what is left of the text. -/
theorem shortLoop_eq {str : CString} {idx : ℕ} {l : List UInt8}
    (hdrop : str.bytes.drop idx = l) (hidx : idx ≤ str.strlen) {fuel : ℕ}
    (hfuel : l.length < fuel) (st : Parser) : shortLoop str fuel st idx =
      movedOn st (Cmdline.parseShortOption (getCmd (advance st)) st.args l) := by
  induction l generalizing idx fuel st with
  | nil =>
      obtain ⟨fuel, rfl⟩ := Nat.exists_eq_add_of_lt hfuel
      have hend : charAt (some str) idx = .ok 0 := @charAt_walk str idx [] hdrop hidx 0 0 rfl
      have hbehind : charAt (some str) (idx + 1) = .error .invalidAccess :=
        charAt_behind hdrop hidx rfl
      rw [shortLoop, hend, ok_bind, Cmdline.parseShortOption, show charInt 0 = 0 from rfl]
      cases getShortOpt st.args 0 with
      | none => rfl
      | some r =>
          obtain ⟨i, item⟩ := r
          dsimp only
          cases item.cb with
          | some cb => cases cb <;> rfl
          | none =>
              dsimp only
              rw [shortArg, hbehind]
              simp only [error_bind, ite_self]
              rfl
  | cons b l ih =>
      obtain ⟨fuel, rfl⟩ := Nat.exists_eq_add_of_lt hfuel
      have hletter : charAt (some str) idx = .ok b :=
        @charAt_walk str idx (b :: l) hdrop hidx 0 b rfl
      rw [List.length_cons, shortLoop, hletter, ok_bind]
      cases hfind : getShortOpt st.args (charInt b) with
      | none => simp only [Cmdline.parseShortOption, hfind]; rfl
      | some r =>
          obtain ⟨i, item⟩ := r
          cases hcb : item.cb with
          | some cb => cases cb <;> simp only [Cmdline.parseShortOption, hfind, hcb] <;> rfl
          | none =>
              simp only [hcb]
              by_cases hargs : (setSeen item).type.args = true
              · rw [if_pos hargs]
                exact shortArg_eq hdrop hidx hfind hcb hargs
              · simp only [Cmdline.parseShortOption, hfind, hcb]
                rw [if_neg hargs, if_neg hargs]
                have hdrop' : str.bytes.drop (idx + 1) = l := by
                  rw [← List.drop_drop, hdrop, List.drop_one, List.tail_cons]
                cases l with
                | nil =>
                    have hend : charAt (some str) (idx + 1) = .ok 0 := charAt_walk hdrop hidx rfl
                    rw [hend, ok_bind, if_pos rfl, if_pos rfl]
                    rfl
                | cons c l =>
                    have hc : c ≠ 0 := by
                      rintro rfl
                      apply str.nul_notMem
                      exact List.mem_of_mem_drop (hdrop' ▸ List.mem_cons_self)
                    have hnext : charAt (some str) (idx + 1) = .ok c := charAt_walk hdrop hidx rfl
                    have hidx' : idx + 1 ≤ str.strlen := by
                      have hlength := congrArg List.length hdrop'
                      rw [List.length_drop, List.length_cons] at hlength
                      rw [CString.strlen]
                      omega
                    rw [hnext, ok_bind, if_neg hc, if_neg (List.cons_ne_nil c l),
                      ih hdrop' hidx' (by omega), movedOn_setItem, getCmd_advance_setItem]
                    rfl

theorem parseShortOption_eq (st : Parser) (str : CString) :
    parseShortOption st str =
      movedOn st (Cmdline.parseShortOption (getCmd (advance st)) st.args str.bytes) :=
  shortLoop_eq List.drop_zero (Nat.zero_le _) (Nat.lt_succ_self _) st

theorem parseLongOption_eq (st : Parser) (str : CString) :
    parseLongOption st str =
      movedOn st (Cmdline.parseLongOption (getCmd (advance st)) st.args str.bytes) := by
  rw [parseLongOption, Cmdline.parseLongOption]
  cases getLongOpt st.args (CString.read (str.bytes.takeWhile (· ≠ 61))) with
  | none => rfl
  | some r =>
      obtain ⟨i, item⟩ := r
      dsimp only
      cases item.cb with
      | some cb => cases cb <;> rfl
      | none =>
          dsimp only
          by_cases hargs : (setSeen item).type.args = true
          · rw [if_pos hargs, if_pos hargs]
            cases str.bytes.dropWhile (· ≠ 61) with
            | nil =>
                simp only [consumeCmd]
                cases getCmd (advance st) with
                | none => rfl
                | some arg => exact congrArg Except.ok (moveOn_withNext st i _)
            | cons c arg => cases arg <;> rfl
          · rw [if_neg hargs, if_neg hargs]
            rfl

theorem parseListItem_eq (st : Parser) (str : CString) :
    parseListItem st str = movedOn st (Cmdline.parseListItem st.args str) := by
  rw [parseListItem, Cmdline.parseListItem]
  cases findEntry (fun item => item.type.anon) st.args <;> rfl

/-- An iteration parses the element as one, with the element behind it in reach. -/
theorem iteration_eq (st : Parser) (ptr : CString) :
    iteration st ptr = movedOn st (parseElement (getCmd (advance st)) st.args ptr) := by
  have htext : ∀ k, (textAt ptr k).bytes = ptr.bytes.drop k := fun k =>
    bytes_read fun hmem => ptr.nul_notMem (List.mem_of_mem_drop hmem)
  cases hptr : ptr.bytes with
  | nil =>
      have hend : charAt (some ptr) 0 = .ok 0 := @charAt_walk ptr 0 [] hptr (Nat.zero_le _) 0 0 rfl
      rw [iteration, hend, ok_bind, if_neg (by decide), parseListItem_eq,
        parseElement_positional (by simp [hptr])]
  | cons b l =>
      have hfirst : charAt (some ptr) 0 = .ok b :=
        @charAt_walk ptr 0 (b :: l) hptr (Nat.zero_le _) 0 b rfl
      rw [iteration, hfirst, ok_bind]
      by_cases hb : b = 45
      · subst hb
        have hsecond : charAt (some ptr) 1 = .ok ((l ++ [0]).headD 0) := by
          cases l with
          | nil => exact @charAt_walk ptr 0 [45] hptr (Nat.zero_le _) 1 0 rfl
          | cons c l => exact @charAt_walk ptr 0 (45 :: c :: l) hptr (Nat.zero_le _) 1 c rfl
        rw [if_pos rfl, hsecond, ok_bind]
        by_cases hlong : l.head? = some 45
        · obtain ⟨l, rfl⟩ := List.head?_eq_some_iff.mp hlong
          have hbytes : ptr.bytes = 45 :: 45 :: (textAt ptr 2).bytes := by
            rw [htext, hptr]
            rfl
          have hdash : ptr = dashDash (textAt ptr 2) := CString.ext hbytes
          rw [if_pos (show (45 :: l ++ [0] : List UInt8).headD 0 = 45 from rfl),
            parseLongOption_eq, ← parseElement_dashDash, ← hdash]
        · have hshort : (l ++ [0]).headD 0 ≠ 45 := by
            cases l with
            | nil => decide
            | cons c l => exact fun h => hlong (congrArg some h)
          rw [if_neg hshort, parseShortOption_eq, parseElement_letters hptr hlong, htext, hptr]
          rfl
      · rw [if_neg hb, parseListItem_eq, parseElement_positional]
        rw [hptr]
        exact fun h => hb (Option.some.inj h)

end SimpleVm.CmdlineLoop
