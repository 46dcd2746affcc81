import SimpleVm.Common.CmdlineProgress

/-!
# What the parsers read

The text of an element is read up to its terminator, but for a lone dash that
an entry without a letter is found for, and for the message about a missing
argument, which reads the letter through the element behind the last one.
-/

namespace SimpleVm.CmdlineLoop

open Cmdline

/-- However far the loop goes, nothing outside the elements is read. -/
def ReadsInside (table : List CmdlineEntry) (argv : List CString) : Prop :=
  ∀ iterations, loop iterations (start table argv) ≠ .error .invalidAccess

section Runs

variable {table : List CmdlineEntry} {cmds : List CString} {st st' : Parser} {n : ℕ}

theorem loop_iterates (h : Relation.ReflTransGen Iterates st st') :
    ∃ k, ∀ n, loop (n + k) st = loop n st' := by
  induction h using Relation.ReflTransGen.head_induction_on with
  | refl => exact ⟨0, fun _ => rfl⟩
  | head hstep hrun ih =>
      obtain ⟨ptr, hptr, hiteration⟩ := hstep
      obtain ⟨k, hk⟩ := ih
      refine ⟨k + 1, fun n => ?_⟩
      rw [← Nat.add_assoc, loop_some hptr, hiteration, ok_bind, hk]

theorem loop_inside (hnot : ¬ ComesTo table cmds (LeavesText table)) (h : Stands table cmds st) :
    loop n st ≠ .error .invalidAccess := by
  induction n generalizing st with
  | zero =>
      rw [loop]
      cases getCmd st <;> exact fun h => by cases h
  | succ n ih =>
      cases hptr : getCmd st with
      | none =>
          rw [loop, hptr]
          exact fun h => by cases h
      | some ptr =>
          rw [loop_some hptr]
          intro hrun
          obtain ⟨post, hrest⟩ := exists_rest hptr
          rcases iteration_cases h.sameOptions hrest with
            hstep | ⟨args', hstep, hargs, -⟩ | ⟨-, hleft⟩ |
              ⟨st', taken, occs, hstep, hreads, hmoved, hargs, -⟩
          · rw [hstep, error_bind] at hrun
            cases hrun
          · rw [hstep, ok_bind] at hrun
            have hstands : Stands table cmds { st with args := args' } :=
              ⟨h.exists_pre, h.sameOptions.trans hargs⟩
            exact ih hstands hrun
          · exact hnot (h.comesTo hrest hleft)
          · rw [hstep, ok_bind] at hrun
            exact ih (h.read hreads hmoved hargs) hrun

/-- A callback that returns is called by every further iteration. -/
theorem loop_callsBack {ptr : CString} {post : List CString} (hcalls : CallsBack table ptr)
    (hrest : rest st = ptr :: post) (hsame : SameOptions table st.args) (n : ℕ) :
    loop n st = .error .diverges := by
  have hptr := (getCmd_of_rest hrest).1
  induction n generalizing st with
  | zero => rw [loop, hptr]
  | succ n ih =>
      obtain ⟨args', hstep, hargs⟩ := iteration_of_callsBack hcalls hrest hsame
      rw [loop_some hptr, hstep]
      exact ih hrest (hsame.trans hargs) hptr

/-- With enough iterations the loop does to the table what the parsers of
single elements do one after the other. -/
theorem loop_eq (hsame : SameOptions table st.args) (hn : (rest st).length ≤ n) :
    (loop n st).map Parser.args = (parseElements none st.args false (rest st)).map Prod.fst := by
  induction n generalizing st with
  | zero =>
      have hnil : rest st = [] := List.length_eq_zero_iff.mp (Nat.le_zero.mp hn)
      rw [loop, getCmd_of_nil hnil, hnil]
      rfl
  | succ n ih =>
      cases hrest : rest st with
      | nil =>
          rw [loop, getCmd_of_nil hrest]
          rfl
      | cons ptr post =>
          rw [loop_some (getCmd_of_rest hrest).1, iteration_at hrest, parseElements, Option.or_none]
          rcases outcome hsame post.head? ptr with
            hparse | ⟨args', hparse, hcalls⟩ | ⟨hparse, -⟩ | ⟨taken, occs, hreads, htaken, hparse⟩
          · rw [hparse]
            rfl
          · have hsame' := hsame.trans (parseElement_sameOptions hparse)
            have hrest' : rest (moveOn st args' .nothing) = ptr :: post := hrest
            have hstays := loop_callsBack hcalls hrest' hsame' n
            rw [hparse, ok_bind]
            exact congrArg (Except.map Parser.args) hstays
          · rw [hparse]
            rfl
          · have hhead : ∀ v ∈ taken.head?, post.head? = some v := fun v hv =>
              htaken v (List.mem_of_mem_head? hv)
            have hmoved := rest_of_read hrest hreads hhead (occs.foldl record st.args)
            have hpost := (List.cons.inj (hrest.symm.trans hmoved)).2
            have hless : (rest (moveOn st (occs.foldl record st.args) (consumedBy taken))).length ≤
                n := by
              have hlength := congrArg List.length hmoved
              rw [List.length_cons, List.length_append] at hlength
              omega
            have hloop := ih (sameOptions_moveOn hsame occs (consumedBy taken)) hless
            rw [args_moveOn] at hloop
            rw [hparse, ok_bind]
            refine hloop.trans (congrArg (Except.map Prod.fst) ?_)
            rcases hreads.taken_cases with rfl | ⟨v, rfl⟩
            · rw [hpost]
              rfl
            · rw [hpost]
              rfl

end Runs

theorem loop_start (table : List CmdlineEntry) (argv : List CString) :
    (loop argv.length (start table argv)).map Parser.args =
      (parseElements none table false argv.tail).map Prod.fst := by
  have hn : (rest (start table argv)).length ≤ argv.length := by
    rw [rest_start, List.length_tail]
    exact Nat.sub_le _ 1
  have hloop := loop_eq (stands_start table argv).sameOptions hn
  rwa [args_start, rest_start] at hloop

/-- The parsers stay inside the elements unless the loop comes to a lone dash
that passes for a letter, or ends at a bundle that lacks its argument. -/
theorem reads_inside_iff (table : List CmdlineEntry) (argv : List CString) :
    ReadsInside table argv ↔ ¬ ComesTo table argv.tail (LeavesText table) := by
  constructor
  · intro hinside hcomes
    obtain ⟨st, ptr, post, hreached, hrest, hsame, hleft⟩ := exists_reached_of_comesTo hcomes
    obtain ⟨k, hk⟩ := loop_iterates hreached
    apply hinside (1 + k)
    rw [hk, loop_some (getCmd_of_rest hrest).1, iteration_of_leavesText hleft hrest hsame,
      error_bind]
  · intro hnot iterations
    exact loop_inside hnot (stands_start table argv)

/-- `-v` takes an argument, and stands at the end without one. -/
theorem not_reads_inside_last :
    ¬ ReadsInside [addCmdline 118 none none none none { args := true }]
      [CString.read [116], CString.read [45, 118]] := by
  intro hinside
  exact hinside 1 rfl

end SimpleVm.CmdlineLoop
