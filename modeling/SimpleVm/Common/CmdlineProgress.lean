import Mathlib.Logic.Relation
import SimpleVm.Common.CmdlineLoop
import SimpleVm.Common.CmdlineOutcomes

/-!
# Progress on the command line

Wherever the loop has come to, the elements in front of it have been read. An
iteration that reads its element moves on by one or two. A callback that
returns has moved nothing, and the next iteration calls it again.
-/

namespace SimpleVm.CmdlineLoop

open Cmdline

def Iterates (st st' : Parser) : Prop :=
  ∃ ptr, getCmd st = some ptr ∧ iteration st ptr = .ok st'

/-- The loop comes to this state. -/
def Reached (table : List CmdlineEntry) (argv : List CString) : Parser → Prop :=
  Relation.ReflTransGen Iterates (start table argv)

/-- Every iteration consumes an element or ends the program, so that there
are not more iterations than elements. -/
structure Progresses (table : List CmdlineEntry) (argv : List CString) : Prop where
  consumes : ∀ st ptr, Reached table argv st → getCmd st = some ptr →
    iteration st ptr = .error .exit ∨
      ∃ st', iteration st ptr = .ok st' ∧ st.cmdsIdx < st'.cmdsIdx
  ends : loop argv.length (start table argv) ≠ .error .diverges

/-- The text of the element is left: for what is behind its terminator, or behind the last one. -/
def LeavesText (table : List CmdlineEntry) (ptr : CString) (post : List CString) : Prop :=
  PassesTerminator table ptr ∨ post = [] ∧ LacksArgument table ptr

/-- What is in front of the place has been read, and the options are what they were. -/
structure Stands (table : List CmdlineEntry) (cmds : List CString) (st : Parser) : Prop where
  exists_pre : ∃ pre occs, cmds = pre ++ rest st ∧ Reads table pre occs
  sameOptions : SameOptions table st.args

/-- What an iteration does at the element `ptr`, with the elements `post` behind it. -/
inductive IterationOutcome (table : List CmdlineEntry) (st : Parser) (ptr : CString)
    (post : List CString) : Prop
  | rejected (hrun : iteration st ptr = .error .exit)
  | callsBack (args' : List CmdlineEntry) (hrun : iteration st ptr = .ok { st with args := args' })
      (hargs : SameOptions st.args args') (hcalls : CallsBack table ptr)
  | left (hrun : iteration st ptr = .error .invalidAccess) (hleft : LeavesText table ptr post)
  | read (st' : Parser) (taken : List CString) (occs : List Occurrence)
      (hrun : iteration st ptr = .ok st') (hreads : ReadsElement table ptr taken occs)
      (hmoved : rest st = ptr :: (taken ++ rest st')) (hargs : SameOptions st.args st'.args)
      (hidx : st.cmdsIdx < st'.cmdsIdx)

/-! ## An iteration -/

section Iteration

variable {table : List CmdlineEntry} {cmds : List CString} {st st' : Parser} {ptr : CString}

theorem exists_rest (hptr : getCmd st = some ptr) : ∃ post, rest st = ptr :: post := by
  rw [getCmd_eq_head?] at hptr
  exact List.head?_eq_some_iff.mp hptr

theorem getCmd_of_rest {post : List CString} (hrest : rest st = ptr :: post) :
    getCmd st = some ptr ∧ getCmd (advance st) = post.head? := by
  rw [getCmd_eq_head?, getCmd_eq_head?, rest_advance, hrest]
  exact ⟨rfl, rfl⟩

theorem getCmd_of_nil (hrest : rest st = []) : getCmd st = none := by
  rw [getCmd_eq_head?, hrest, List.head?_nil]

theorem sameOptions_moveOn (hsame : SameOptions table st.args) (occs : List Occurrence)
    (consumed : Consumed) :
    SameOptions table (moveOn st (occs.foldl record st.args) consumed).args := by
  rw [args_moveOn]
  exact hsame.trans (sameOptions_foldl st.args occs)

theorem Stands.comesTo (h : Stands table cmds st) {post : List CString}
    (hrest : rest st = ptr :: post) {Q : CString → List CString → Prop} (hQ : Q ptr post) :
    ComesTo table cmds Q := by
  obtain ⟨pre, occs, hcmds, hpre⟩ := h.exists_pre
  exact ⟨pre, ptr, post, occs, hrest ▸ hcmds, hpre, hQ⟩

theorem iteration_at {post : List CString} (hrest : rest st = ptr :: post) :
    iteration st ptr = movedOn st (parseElement post.head? st.args ptr) := by
  rw [iteration_eq, (getCmd_of_rest hrest).2]

/-- The loop moves on behind what has been read. -/
theorem rest_of_read {post taken : List CString} {occs : List Occurrence}
    (hrest : rest st = ptr :: post) (hreads : ReadsElement table ptr taken occs)
    (htaken : ∀ v ∈ taken.head?, post.head? = some v) (args : List CmdlineEntry) :
    rest st = ptr :: (taken ++ rest (moveOn st args (consumedBy taken))) := by
  rcases hreads.taken_cases with rfl | ⟨v, rfl⟩
  · rw [show consumedBy [] = .element from rfl, rest_moveOn_element, hrest]
    rfl
  · rw [show consumedBy [v] = .withNext from rfl, rest_moveOn_withNext, hrest]
    obtain ⟨post, rfl⟩ := List.head?_eq_some_iff.mp (htaken v rfl)
    rfl

theorem cmdsIdx_lt_of_rest {consumed : Consumed} {args : List CmdlineEntry} {taken : List CString}
    (hrest : rest st = ptr :: (taken ++ rest (moveOn st args consumed))) :
    st.cmdsIdx < (moveOn st args consumed).cmdsIdx := by
  have hlength := congrArg List.length hrest
  rw [rest, rest, cmds_moveOn, List.length_cons, List.length_append, List.length_drop,
    List.length_drop] at hlength
  omega

theorem iteration_cases (hsame : SameOptions table st.args) {post : List CString}
    (hrest : rest st = ptr :: post) : IterationOutcome table st ptr post := by
  have hrun := iteration_at hrest
  rcases outcome hsame post.head? ptr with
    hparse | ⟨args', hparse, hcalls⟩ | ⟨hparse, hleft⟩ | ⟨taken, occs, hreads, htaken, hparse⟩
  · rw [hparse] at hrun
    exact .rejected hrun
  · rw [hparse] at hrun
    exact .callsBack args' hrun (parseElement_sameOptions hparse) hcalls
  · rw [hparse] at hrun
    exact .left hrun (hleft.imp id (And.imp_left List.head?_eq_none_iff.mp))
  · rw [hparse] at hrun
    have hhead : ∀ v ∈ taken.head?, post.head? = some v := fun v hv =>
      htaken v (List.mem_of_mem_head? hv)
    have hmoved := rest_of_read hrest hreads hhead (occs.foldl record st.args)
    exact .read _ taken occs hrun hreads hmoved
      (sameOptions_moveOn (SameOptions.refl _) occs _) (cmdsIdx_lt_of_rest hmoved)

theorem iteration_of_callsBack {post : List CString} (h : CallsBack table ptr)
    (hrest : rest st = ptr :: post) (hsame : SameOptions table st.args) :
    ∃ args', iteration st ptr = .ok { st with args := args' } ∧ SameOptions st.args args' := by
  obtain ⟨args', hparse⟩ := h.parse hsame post.head?
  refine ⟨args', ?_, parseElement_sameOptions hparse⟩
  rw [iteration_at hrest, hparse]
  rfl

theorem iteration_of_leavesText {post : List CString} (h : LeavesText table ptr post)
    (hrest : rest st = ptr :: post) (hsame : SameOptions table st.args) :
    iteration st ptr = .error .invalidAccess := by
  rw [iteration_at hrest]
  rcases h with hpast | ⟨rfl, hlacks⟩
  · rw [hpast.parse hsame]
    rfl
  · rw [List.head?_nil, hlacks.parse hsame]
    rfl

/-- What has been read moves the reading on. -/
theorem Stands.read (h : Stands table cmds st) {taken : List CString} {occs : List Occurrence}
    (hreads : ReadsElement table ptr taken occs) (hmoved : rest st = ptr :: (taken ++ rest st'))
    (hargs : SameOptions st.args st'.args) : Stands table cmds st' := by
  obtain ⟨pre, occs', hcmds, hpre⟩ := h.exists_pre
  refine ⟨⟨pre ++ ptr :: taken, occs' ++ occs, ?_, ?_⟩, h.sameOptions.trans hargs⟩
  · rw [hcmds, List.append_assoc, List.cons_append, ← hmoved]
  · have hone : Reads table (ptr :: (taken ++ [])) (occs ++ []) := .cons hreads .nil
    rw [List.append_nil, List.append_nil] at hone
    exact hpre.append hone

theorem Stands.iterates (h : Stands table cmds st) (hstep : Iterates st st') :
    Stands table cmds st' := by
  obtain ⟨ptr, hptr, hiteration⟩ := hstep
  obtain ⟨post, hrest⟩ := exists_rest hptr
  rcases iteration_cases h.sameOptions hrest with
    hrun | ⟨args', hrun, hargs, -⟩ | ⟨hrun, -⟩ | ⟨st₁, taken, occs, hrun, hreads, hmoved, hargs, -⟩
  · cases hiteration.symm.trans hrun
  · obtain rfl := Except.ok.inj (hiteration.symm.trans hrun)
    exact ⟨h.exists_pre, h.sameOptions.trans hargs⟩
  · cases hiteration.symm.trans hrun
  · obtain rfl := Except.ok.inj (hiteration.symm.trans hrun)
    exact h.read hreads hmoved hargs

end Iteration

/-! ## Runs of the loop -/

section Runs

variable {table : List CmdlineEntry} {argv : List CString} {st st' : Parser}

theorem stands_start (table : List CmdlineEntry) (argv : List CString) :
    Stands table argv.tail (start table argv) where
  exists_pre := ⟨[], [], (rest_start table argv).symm, .nil⟩
  sameOptions := by
    rw [args_start]
    exact SameOptions.refl table

theorem Reached.stands (h : Reached table argv st) : Stands table argv.tail st := by
  induction h with
  | refl => exact stands_start table argv
  | tail hrun hstep ih => exact ih.iterates hstep

/-- The loop comes to where a reading ends. -/
theorem exists_iterates {pre post : List CString} {occs : List Occurrence}
    (hreads : Reads table pre occs) (hrest : rest st = pre ++ post)
    (hsame : SameOptions table st.args) :
    ∃ st', Relation.ReflTransGen Iterates st st' ∧ rest st' = post ∧
      SameOptions table st'.args := by
  induction hreads generalizing st with
  | nil => exact ⟨st, .refl, hrest, hsame⟩
  | @cons ptr taken cmds occs occs' helement hreads ih =>
      rw [List.cons_append, List.append_assoc] at hrest
      have hhead := helement.head?_append (cmds ++ post)
      have hext : Extends table st.args := ⟨[], by rwa [List.append_nil]⟩
      have hmoved := rest_of_read hrest helement hhead (occs.foldl record st.args)
      have hrest' := List.append_cancel_left (List.cons.inj (hmoved.symm.trans hrest)).2
      have hsame' := sameOptions_moveOn hsame occs (consumedBy taken)
      obtain ⟨st', hrun, hend, hsame''⟩ := ih hrest' hsame'
      refine ⟨st', .head ⟨ptr, (getCmd_of_rest hrest).1, ?_⟩ hrun, hend, hsame''⟩
      rw [iteration_at hrest, helement.parse hext hhead]
      rfl

theorem exists_reached_of_comesTo {Q : CString → List CString → Prop}
    (h : ComesTo table argv.tail Q) : ∃ st ptr post, Reached table argv st ∧
      rest st = ptr :: post ∧ SameOptions table st.args ∧ Q ptr post := by
  obtain ⟨pre, ptr, post, occs, hcmds, hpre, hQ⟩ := h
  have hstart : rest (start table argv) = pre ++ ptr :: post := (rest_start table argv).trans hcmds
  obtain ⟨st, hrun, hrest, hsame⟩ :=
    exists_iterates hpre hstart (stands_start table argv).sameOptions
  exact ⟨st, ptr, post, hrun, hrest, hsame, hQ⟩

theorem loop_some {ptr : CString} (hptr : getCmd st = some ptr) (n : ℕ) :
    loop (n + 1) st = iteration st ptr >>= loop n := by
  rw [loop, hptr]

/-- Progress from a state on bounds the iterations by the elements that are left. -/
theorem loop_ends {n : ℕ} (hn : (rest st).length ≤ n)
    (hconsumes : ∀ st' ptr, Relation.ReflTransGen Iterates st st' → getCmd st' = some ptr →
      iteration st' ptr = .error .exit ∨
        ∃ st'', iteration st' ptr = .ok st'' ∧ (rest st'').length < (rest st').length) :
    loop n st ≠ .error .diverges := by
  induction n generalizing st with
  | zero =>
      have hnil : rest st = [] := List.length_eq_zero_iff.mp (Nat.le_zero.mp hn)
      rw [loop, getCmd_of_nil hnil]
      exact fun h => by cases h
  | succ n ih =>
      cases hptr : getCmd st with
      | none =>
          rw [loop, hptr]
          exact fun h => by cases h
      | some ptr =>
          rw [loop_some hptr]
          rcases hconsumes st ptr .refl hptr with hexit | ⟨st', hstep, hless⟩
          · rw [hexit, error_bind]
            exact fun h => by cases h
          · rw [hstep, ok_bind]
            apply ih (Nat.le_of_lt_succ (Nat.lt_of_lt_of_le hless hn))
            intro st₁ ptr₁ hrun
            exact hconsumes st₁ ptr₁ (.head ⟨ptr, hptr, hstep⟩ hrun)

theorem Stands.moves_or_exits {cmds : List CString} (h : Stands table cmds st)
    (hnot : ¬ ComesTo table cmds fun ptr post => CallsBack table ptr ∨ LeavesText table ptr post)
    {ptr : CString} (hptr : getCmd st = some ptr) :
    iteration st ptr = .error .exit ∨ ∃ st', iteration st ptr = .ok st' ∧
      st.cmdsIdx < st'.cmdsIdx ∧ (rest st').length < (rest st).length := by
  obtain ⟨post, hrest⟩ := exists_rest hptr
  rcases iteration_cases h.sameOptions hrest with
    hrun | ⟨args', hrun, -, hcalls⟩ | ⟨hrun, hleft⟩ | ⟨st', taken, occs, hrun, -, hmoved, -, hidx⟩
  · exact .inl hrun
  · exact (hnot (h.comesTo hrest (.inl hcalls))).elim
  · exact (hnot (h.comesTo hrest (.inr hleft))).elim
  · refine .inr ⟨st', hrun, hidx, ?_⟩
    rw [hmoved, List.length_cons, List.length_append]
    omega

end Runs

/-- The loop makes progress unless it comes to an element that is left to a
callback that returns, or whose text is left. -/
theorem progresses_iff (table : List CmdlineEntry) (argv : List CString) :
    Progresses table argv ↔ ¬ ComesTo table argv.tail fun ptr post =>
      CallsBack table ptr ∨ LeavesText table ptr post := by
  constructor
  · intro hprogress hcomes
    obtain ⟨st, ptr, post, hreached, hrest, hsame, hends⟩ := exists_reached_of_comesTo hcomes
    have hmoves := hprogress.consumes st ptr hreached (getCmd_of_rest hrest).1
    rcases hends with hcalls | hleft
    · obtain ⟨args', hstep, -⟩ := iteration_of_callsBack hcalls hrest hsame
      rcases hmoves with hexit | ⟨st', hmoved, hless⟩
      · cases hstep.symm.trans hexit
      · obtain rfl := Except.ok.inj (hstep.symm.trans hmoved)
        exact Nat.lt_irrefl _ hless
    · have hstep := iteration_of_leavesText hleft hrest hsame
      rcases hmoves with hexit | ⟨st', hmoved, -⟩
      · cases hstep.symm.trans hexit
      · cases hstep.symm.trans hmoved
  · intro hnot
    constructor
    · intro st ptr hreached hptr
      rcases hreached.stands.moves_or_exits hnot hptr with hexit | ⟨st', hstep, hless, -⟩
      · exact .inl hexit
      · exact .inr ⟨st', hstep, hless⟩
    · apply loop_ends
      · rw [rest_start, List.length_tail]
        exact Nat.sub_le _ 1
      · intro st ptr hrun hptr
        have hstands : Stands table argv.tail st := Reached.stands hrun
        rcases hstands.moves_or_exits hnot hptr with hexit | ⟨st', hstep, -, hless⟩
        · exact .inl hexit
        · exact .inr ⟨st', hstep, hless⟩

/-- The callback of `-x` returns, and the loop is where it was. -/
theorem not_progresses_callback :
    ¬ Progresses [addCmdline 120 none none none (some .returns) {}]
      [CString.read [116], CString.read [45, 120]] := by
  intro hprogress
  have hsame : iteration (start [addCmdline 120 none none none (some .returns) {}]
      [CString.read [116], CString.read [45, 120]]) (CString.read [45, 120]) =
        .ok (start [addCmdline 120 none none none (some .returns) {}]
          [CString.read [116], CString.read [45, 120]]) := rfl
  rcases hprogress.consumes _ (CString.read [45, 120]) .refl rfl with hexit | ⟨st', hstep, hless⟩
  · cases hsame.symm.trans hexit
  · obtain rfl := Except.ok.inj (hsame.symm.trans hstep)
    exact Nat.lt_irrefl _ hless

end SimpleVm.CmdlineLoop
