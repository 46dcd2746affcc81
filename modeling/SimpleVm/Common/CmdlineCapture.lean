import SimpleVm.Common.CmdlineEnvironment
import SimpleVm.Common.CmdlineValues
import SimpleVm.Common.FixedBuffer
import SimpleVm.Common.StringSplit
import SimpleVm.Lib.Iteration

/-!
# What becomes of the environment

Every entry of the environment is copied into the same buffer, cut at its first
`=`, and what is behind that is split. An entry that fills the buffer has no
end there. The variables stand behind the options, and no argument changes the
value of one of them.
-/

namespace SimpleVm.Cmdline

/-! ## The source -/

/-- An entry on its way through the buffer, and the buffer behind it. -/
def storeEntryIn (buffer : List UInt8) (entry : CString) :
    Except Halt (List CmdlineEntry × List UInt8) := do
  let buffer ← strncpy buffer entry 1024
  let tmp ← StringSplit.strchr buffer 0 61
  match tmp with
  | none => .ok ([], buffer)
  | some tmp => do
      let buffer ← writeBlock buffer tmp [0]
      let name ← stringAt buffer 0
      match buffer[tmp + 1]? with
      | none => .error .invalidAccess
      | some b => do
          let head ← stringAt buffer (tmp + 1)
          let value :=
            if b ≠ 58 then StringList.splitString head 58 else StringList.singleton head
          .ok ([⟨0, none, some name, some value, none, {}⟩], buffer)

def storeEnvironmentIn : List UInt8 → List CString → Except Halt (List CmdlineEntry)
  | _, [] => .ok []
  | buffer, entry :: env => do
      let (head, buffer) ← storeEntryIn buffer entry
      let tail ← storeEnvironmentIn buffer env
      .ok (head ++ tail)

/-- The buffer on the stack, with what happens to be there. -/
def environmentBuffer (garbage : ℕ → UInt8) : List UInt8 := (List.range 1024).map garbage

/-! ## What is to come of it -/

/-- The entry is `NAME=VALUE`. -/
structure IsAssignment (entry name value : CString) : Prop where
  bytes : entry.bytes = name.bytes ++ 61 :: value.bytes
  notMem : 61 ∉ name.bytes

/-- A value with a colon in front is one piece. -/
def valuePieces (value : CString) : List CString :=
  if value.bytes.head? = some 58 then [value] else pieces value

/-- The first entry with this name, which no option has, is `NAME=VALUE`. -/
structure FirstNamed (table : List CmdlineEntry) (env : List CString) (name value : CString) :
    Prop where
  exists_split : ∃ pre entry post, env = pre ++ entry :: post ∧ IsAssignment entry name value ∧
    ∀ earlier ∈ pre, ∀ value', ¬ IsAssignment earlier name value'
  not_registered : ∀ opt ∈ table, opt.name ≠ some name

/-- The environment is stored inside the buffer, and iterating a name gives its pieces. -/
structure Captures (garbage : ℕ → UInt8) (table : List CmdlineEntry) (env argv : List CString) :
    Prop where
  inside : ∃ vars, storeEnvironmentIn (environmentBuffer garbage) env = .ok vars
  iterated : ∀ args, parseCmdline table env argv = .ok args →
    ∀ name value, FirstNamed table env name value →
      Drains (fun mark => (.ok (iterateCmdOpt args name mark) : Except Halt (Option CString × ℤ))) 0
        (valuePieces value)

/-! ## One entry -/

/-- What is kept of `NAME=VALUE`. -/
def variableOf (name value : CString) : CmdlineEntry :=
  ⟨0, none, some name, some (if value.bytes.head? = some 58 then StringList.singleton value
    else StringList.splitString value 58), none, {}⟩

theorem toList_variableOf (value : CString) :
    (if value.bytes.head? = some 58 then StringList.singleton value
      else StringList.splitString value 58).toList = valuePieces value := by
  rw [valuePieces]
  split
  · rfl
  · exact toList_splitString value

theorem assignment_cases (entry : CString) :
    61 ∉ entry.bytes ∨ ∃ name value, IsAssignment entry name value := by
  obtain ⟨name, hname, rfl | ⟨value, rfl⟩⟩ := exists_name entry
  · exact .inl hname
  · exact .inr ⟨name, value, rfl, hname⟩

theorem storeEntry_of_notMem {entry : CString} (hshort : entry.strlen < 1024)
    (hnone : 61 ∉ entry.bytes) : storeEntry entry = .ok [] := by
  rw [storeEntry, if_neg (Nat.not_le.mpr hshort), (dashDash_name hnone).2]

theorem IsAssignment.storeEntry {entry name value : CString} (h : IsAssignment entry name value)
    (hshort : entry.strlen < 1024) : Cmdline.storeEntry entry = .ok [variableOf name value] := by
  obtain ⟨htake, hdrop⟩ := takeWhile_longName h.notMem value.bytes
  rw [← h.bytes] at htake hdrop
  rw [Cmdline.storeEntry, if_neg (Nat.not_le.mpr hshort), hdrop, htake]
  simp only [CString.read_bytes]
  rfl

section Buffer

variable {buffer : List UInt8} {entry name value : CString} (hlen : buffer.length = 1024)

include hlen

theorem storeEntryIn_of_notMem (hshort : entry.strlen < 1024) (hnone : 61 ∉ entry.bytes) :
    ∃ buffer', storeEntryIn buffer entry = .ok ([], buffer') ∧ buffer'.length = 1024 := by
  obtain ⟨rest, hcopy, hlength⟩ := FixedBuffer.strncpy_fits hlen hshort
  have hfind := @StringSplit.strchr_eq 61 [] entry.bytes rest 0 hnone entry.nul_notMem (.inr rfl)
  rw [List.nil_append, List.length_nil, if_neg (by decide)] at hfind
  refine ⟨_, ?_, hlength⟩
  rw [storeEntryIn, hcopy, ok_bind, hfind, ok_bind]

theorem IsAssignment.storeEntryIn (h : IsAssignment entry name value)
    (hshort : entry.strlen < 1024) :
    ∃ buffer', Cmdline.storeEntryIn buffer entry = .ok ([variableOf name value], buffer') ∧
      buffer'.length = 1024 := by
  obtain ⟨rest, hcopy, hlength⟩ := FixedBuffer.strncpy_fits hlen hshort
  rw [h.bytes, List.append_assoc, List.cons_append] at hcopy hlength
  have hfind := @StringSplit.strchr_eq 61 [] name.bytes (value.bytes ++ 0 :: rest) 61 h.notMem
    name.nul_notMem (.inl rfl)
  rw [List.nil_append, List.length_nil, if_pos (show (61 : UInt8) = charOf 61 by decide),
    Nat.zero_add] at hfind
  have hname := FixedBuffer.stringAt_eq [] (value.bytes ++ 0 :: rest) name
  rw [List.nil_append, List.length_nil] at hname
  have hvalue := FixedBuffer.stringAt_eq (name.bytes ++ [0]) rest value
  rw [List.append_assoc, List.singleton_append, List.length_append, List.length_singleton]
    at hvalue
  have hhead : (name.bytes ++ 0 :: (value.bytes ++ 0 :: rest))[name.bytes.length + 1]? =
      some (value.bytes.headD 0) := by
    rw [List.getElem?_append_right (Nat.le_add_right _ 1), Nat.add_sub_cancel_left]
    cases value.bytes <;> rfl
  have hcolon : value.bytes.headD 0 ≠ 58 ↔ ¬ value.bytes.head? = some 58 := by
    cases value.bytes with
    | nil => simp
    | cons b bytes => simp
  refine ⟨name.bytes ++ 0 :: (value.bytes ++ 0 :: rest), ?_, ?_⟩
  · rw [Cmdline.storeEntryIn, hcopy, ok_bind, hfind, ok_bind]
    dsimp only
    rw [StringT.writeBlock_cut, ok_bind, hname, ok_bind, hhead]
    dsimp only
    rw [hvalue, ok_bind]
    simp only [hcolon, ite_not]
    rfl
  · rw [← hlength]
    simp only [List.length_append, List.length_cons]

/-- An entry that fills the buffer is read behind it. -/
theorem storeEntryIn_long (hlong : 1024 ≤ entry.strlen) :
    storeEntryIn buffer entry = .error .invalidAccess := by
  have hnul : 0 ∉ entry.bytes.take 1024 := fun hmem =>
    entry.nul_notMem (List.mem_of_mem_take hmem)
  rw [storeEntryIn, FixedBuffer.strncpy_full hlen hlong, ok_bind]
  rcases StringSplit.split_cases 61 (entry.bytes.take 1024) with hnone | ⟨piece, more, hbytes, hpiece⟩
  · have hfind : (entry.bytes.take 1024).findIdx? (fun b => b = charOf 61 ∨ b = 0) = none := by
      rw [List.findIdx?_eq_none_iff]
      intro b hb
      apply decide_eq_false
      rintro (rfl | rfl)
      · exact hnone hb
      · exact hnul hb
    rw [StringSplit.strchr, List.drop_zero, hfind]
    rfl
  · rw [hbytes] at hnul ⊢
    have hnone : 0 ∉ piece := fun hmem => hnul (List.mem_append_left _ hmem)
    have hfind := @StringSplit.strchr_eq 61 [] piece more 61 hpiece hnone (.inl rfl)
    rw [List.nil_append, List.length_nil, if_pos (show (61 : UInt8) = charOf 61 by decide),
      Nat.zero_add] at hfind
    have hname := FixedBuffer.stringAt_eq [] more ⟨piece, hnone⟩
    rw [List.nil_append, List.length_nil] at hname
    have hdrop : (piece ++ 0 :: more).drop (piece.length + 1) = more := by
      rw [List.drop_append, List.drop_of_length_le (Nat.le_add_right _ 1), List.nil_append,
        Nat.add_sub_cancel_left, List.drop_one, List.tail_cons]
    have hvalue : stringAt (piece ++ 0 :: more) (piece.length + 1) = .error .invalidAccess := by
      apply FixedBuffer.stringAt_outside
      rw [hdrop]
      exact fun hmem => hnul (List.mem_append_right _ (List.mem_cons_of_mem _ hmem))
    rw [hfind, ok_bind]
    dsimp only
    rw [StringT.writeBlock_cut, ok_bind, hname, ok_bind]
    split
    · rfl
    · rw [hvalue, error_bind]

/-- The buffer makes no difference to what is stored, and is too small where it says so. -/
theorem storeEnvironmentIn_eq (env : List CString) :
    storeEnvironmentIn buffer env = storeEnvironment env := by
  induction env generalizing buffer with
  | nil => rfl
  | cons entry env ih =>
      rw [storeEnvironmentIn, storeEnvironment]
      by_cases hshort : entry.strlen < 1024
      · rcases assignment_cases entry with hnone | ⟨name, value, h⟩
        · obtain ⟨buffer', hrun, hlen'⟩ := storeEntryIn_of_notMem hlen hshort hnone
          rw [hrun, ok_bind, storeEntry_of_notMem hshort hnone, ok_bind]
          dsimp only
          rw [ih hlen']
        · obtain ⟨buffer', hrun, hlen'⟩ := h.storeEntryIn hlen hshort
          rw [hrun, ok_bind, h.storeEntry hshort, ok_bind]
          dsimp only
          rw [ih hlen']
      · have hlong := Nat.not_lt.mp hshort
        rw [storeEntryIn_long hlen hlong, error_bind, storeEntry, if_pos hlong, error_bind]

end Buffer

/-! ## All entries -/

theorem SameOptions.exists_plain {table args : List CmdlineEntry} (h : SameOptions table args)
    {item : CmdlineEntry} (hitem : item ∈ args) : ∃ opt ∈ table, plain opt = plain item := by
  have hmem : plain item ∈ table.map plain := by
    rw [show table.map plain = args.map plain from h]
    exact List.mem_map_of_mem hitem
  exact List.mem_map.mp hmem

theorem storeEnvironment_first {pre post : List CString} {entry name value : CString}
    (hshort : ShortEntries (pre ++ entry :: post)) (h : IsAssignment entry name value)
    (hfirst : ∀ earlier ∈ pre, ∀ value', ¬ IsAssignment earlier name value') :
    ∃ front back, storeEnvironment (pre ++ entry :: post) =
        .ok (front ++ variableOf name value :: back) ∧
      ∀ item ∈ front, item.name ≠ some name := by
  induction pre with
  | nil =>
      obtain ⟨hentry, hpost⟩ := List.forall_mem_cons.mp hshort
      obtain ⟨back, hback, -⟩ := storeEnvironment_spec hpost
      refine ⟨[], back, ?_, by simp⟩
      rw [List.nil_append, storeEnvironment, h.storeEntry hentry, ok_bind, hback, ok_bind]
      rfl
  | cons earlier pre ih =>
      obtain ⟨hearlier, hrest⟩ := List.forall_mem_cons.mp hshort
      obtain ⟨hother, hothers⟩ := List.forall_mem_cons.mp hfirst
      obtain ⟨front, back, hstore, hfront⟩ := ih hrest hothers
      rcases assignment_cases earlier with hnone | ⟨name', value', h'⟩
      · refine ⟨front, back, ?_, hfront⟩
        rw [List.cons_append, storeEnvironment, storeEntry_of_notMem hearlier hnone, ok_bind,
          hstore, ok_bind, List.nil_append]
      · refine ⟨variableOf name' value' :: front, back, ?_, ?_⟩
        · rw [List.cons_append, storeEnvironment, h'.storeEntry hearlier, ok_bind, hstore, ok_bind]
          rfl
        · intro item hitem
          rcases List.mem_cons.mp hitem with rfl | hitem
          · intro hname
            obtain rfl : name' = name := Option.some.inj hname
            exact hother value' h'
          · exact hfront item hitem

theorem getOptByName_variable {table opts front back : List CmdlineEntry} {name value : CString}
    (hsame : SameOptions table opts) (hreg : ∀ opt ∈ table, opt.name ≠ some name)
    (hfront : ∀ item ∈ front, item.name ≠ some name) :
    getOptByName (opts ++ (front ++ variableOf name value :: back)) name =
      some (variableOf name value) := by
  have hnone : ∀ item ∈ opts ++ front, decide (item.name = some name) = false := by
    intro item hitem
    apply decide_eq_false
    rcases List.mem_append.mp hitem with hopt | hvar
    · obtain ⟨opt, hmem, hplain⟩ := hsame.exists_plain hopt
      have hname : (plain opt).name = (plain item).name := congrArg CmdlineEntry.name hplain
      exact fun heq => hreg opt hmem (hname.trans heq)
    · exact hfront item hvar
  rw [← List.append_assoc, getOptByName, findEntry_append_cons hnone (decide_eq_true rfl)]
  rfl

/-- A mark that is counted up from the first string goes once through the list. -/
theorem drains_iterateStringList (lst : StringList) :
    Drains (fun mark => (.ok (iterateStringList (some lst) mark) : Except Halt (Option CString × ℤ)))
      0 lst.toList := by
  have hinside : ∀ i (hi : i < lst.toList.length),
      (.ok (iterateStringList (some lst) (i : ℤ)) : Except Halt (Option CString × ℤ)) =
        .ok (some lst.toList[i], ((i + 1 : ℕ) : ℤ)) := by
    intro i hi
    rw [iterateStringList, if_pos ⟨Int.natCast_nonneg i, Int.ofNat_lt.mpr hi⟩, Int.toNat_natCast,
      List.getElem?_eq_getElem hi, Int.natCast_succ]
  have hend : (.ok (iterateStringList (some lst) (lst.toList.length : ℤ)) :
      Except Halt (Option CString × ℤ)) = .ok (none, (lst.toList.length : ℤ)) := by
    rw [iterateStringList, if_neg fun h => Int.lt_irrefl _ h.2]
  exact drains_counted Nat.cast hinside hend [] rfl

/-- The environment arrives, whatever it and the arguments are, exactly when
every entry ends inside the buffer. -/
theorem captures_iff (garbage : ℕ → UInt8) (table : List CmdlineEntry) (env argv : List CString) :
    Captures garbage table env argv ↔ ShortEntries env := by
  have hlen : (environmentBuffer garbage).length = 1024 := by
    rw [environmentBuffer, List.length_map, List.length_range]
  constructor
  · rintro ⟨⟨vars, hinside⟩, -⟩
    rw [storeEnvironmentIn_eq hlen] at hinside
    exact shortEntries_of_ok hinside
  · intro hshort
    obtain ⟨vars, hstore, -⟩ := storeEnvironment_spec hshort
    refine ⟨⟨vars, (storeEnvironmentIn_eq hlen env).trans hstore⟩, ?_⟩
    intro args hrun name value ⟨⟨pre, entry, post, henv, hassign, hfirst⟩, hreg⟩
    subst henv
    obtain ⟨vars', opts, hstore', hopts, rfl⟩ := exists_opts_of_parseCmdline hrun
    have hsame := sameOptions_parseCmdline hopts
    obtain ⟨front, back, hsplit, hfront⟩ := storeEnvironment_first hshort hassign hfirst
    obtain rfl := Except.ok.inj (hstore'.symm.trans hsplit)
    have hiter : iterateCmdOpt (opts ++ (front ++ variableOf name value :: back)) name =
        iterateStringList (variableOf name value).value := by
      funext mark
      rw [iterateCmdOpt, getOptByName_variable hsame hreg hfront]
    rw [hiter, ← toList_variableOf]
    exact drains_iterateStringList _

/-- `A=` and so many letters behind it. -/
def manyLetters (n : ℕ) : CString where
  bytes := 65 :: 61 :: List.replicate n 98
  nul_notMem := by
    simp only [List.mem_cons, List.mem_replicate, not_or, not_and]
    exact ⟨by decide, by decide, fun _ => by decide⟩

theorem strlen_manyLetters (n : ℕ) : (manyLetters n).strlen = n + 2 := by
  rw [CString.strlen, manyLetters, List.length_cons, List.length_cons, List.length_replicate]

theorem not_captures_long :
    ¬ Captures (fun _ => 0) [] [manyLetters 1024] [CString.read [116]] := by
  rintro ⟨⟨vars, hinside⟩, -⟩
  have hlen : (environmentBuffer fun _ => 0).length = 1024 := by
    rw [environmentBuffer, List.length_map, List.length_range]
  have hlong : 1024 ≤ (manyLetters 1024).strlen := by
    rw [strlen_manyLetters]
    exact Nat.le_add_right 1024 2
  rw [storeEnvironmentIn, storeEntryIn_long hlen hlong] at hinside
  cases hinside

end SimpleVm.Cmdline
