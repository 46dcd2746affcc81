import SimpleVm.Common.FixedBuffer
import SimpleVm.Common.StringRemove

/-!
# Finding a file

The name is completed with the extension, and every directory of the finder
path is tried with it, in one buffer of `_POSIX_PATH_MAX` bytes. The directory
is copied with a bound, the rest is appended without one. The finder path is
made at the first call.
-/

namespace SimpleVm.FindFile

/-! ## The source -/

/-- What `getenv`, `realpath`, `glob` and `stat` answer. -/
structure System where
  getenv : CString → Option CString
  realpath : CString → Option CString
  glob : CString → List CString
  isDir : CString → Bool
  fileExists : CString → Bool

/-- `common_env` and `buffer`. -/
structure Finder where
  commonEnv : Option (List CString)
  buffer : List UInt8

def posixPathMax : ℕ := 256

def initial : Finder := ⟨none, List.replicate posixPathMax 0⟩

def pgenPath : CString := CString.read [80, 71, 69, 78, 95, 80, 65, 84, 72]
def path : CString := CString.read [80, 65, 84, 72]
def dotDot : CString := CString.read [46, 46]
def slash : CString := CString.read [47]
def slashStar : CString := CString.read [47, 42]

def getPath (sys : System) (str : CString) (buffer : List UInt8) : Except Halt (List UInt8) :=
  match sys.realpath str with
  | none => .error .fatal
  | some resolved => strcpy buffer resolved

/-- The calls of `strtok`, which gives no empty tokens. -/
def tokens (str : CString) : List CString :=
  ((str.bytes.splitOn 58).filter (· ≠ [])).map CString.read

def addEnv (sys : System) (str : CString) (env : List CString) : List CString :=
  match sys.getenv str with
  | none => env
  | some value => env ++ tokens value

def addDirs (sys : System) (dname : CString) (env : List CString) (buffer : List UInt8) :
    Except Halt (List CString × List UInt8) := do
  let buffer ← getPath sys dname buffer
  let buffer ← strcat buffer slashStar
  let pattern ← stringAt buffer 0
  .ok (env ++ (sys.glob pattern).filter sys.isDir, buffer)

def setupEnv (sys : System) (buffer : List UInt8) : Except Halt (List CString × List UInt8) := do
  let env := addEnv sys pgenPath []
  let (env, buffer) ← addDirs sys dotDot env buffer
  .ok (addEnv sys path env, buffer)

/-- `tmp_name` where the extension is missing. -/
def addExtension (fname ext : CString) : Except Halt CString := do
  let tmpName ← strcpy (List.replicate posixPathMax 0) fname
  let tmpName ← strcat tmpName ext
  stringAt tmpName 0

def completeName (fname ext : CString) : Except Halt CString := do
  let tmpName ← StringT.strrchr (fname.bytes ++ [0]) 46
  match tmpName with
  | none => addExtension fname ext
  | some i =>
      if CString.read (fname.bytes.drop i) ≠ ext then addExtension fname ext else .ok fname

/-- The candidate for one directory. -/
def tryPath (buffer : List UInt8) (s tmpName : CString) : Except Halt (List UInt8) := do
  let buffer ← strncpy buffer s posixPathMax
  let buffer ← strcat buffer slash
  strcat buffer tmpName

/-- The file that was found, and the candidates that were tested. -/
def searchDirs (sys : System) (tmpName : CString) :
    List CString → List UInt8 → Except Halt (Option CString × List CString × List UInt8)
  | [], buffer => .ok (none, [], buffer)
  | s :: env, buffer => do
      let buffer ← tryPath buffer s tmpName
      let candidate ← stringAt buffer 0
      if sys.fileExists candidate then .ok (some candidate, [candidate], buffer)
      else do
        let (found, tested, buffer) ← searchDirs sys tmpName env buffer
        .ok (found, candidate :: tested, buffer)

def getEnv (sys : System) (st : Finder) : Except Halt (List CString × List UInt8) :=
  match st.commonEnv with
  | none => setupEnv sys st.buffer
  | some env => .ok (env, st.buffer)

/-- The path that is returned, and the candidates that were tested. -/
def findFile (sys : System) (st : Finder) (fname ext : CString) :
    Except Halt (CString × List CString × Finder) := do
  let tmpName ← completeName fname ext
  let (env, buffer) ← getEnv sys st
  let (found, tested, buffer) ← searchDirs sys tmpName env buffer
  .ok (found.getD fname, tested, ⟨some env, buffer⟩)

/-! ## What is to come of it -/

/-- The extension is what the name has from its last dot on. -/
structure HasExtension (fname ext : CString) : Prop where
  head : ext.bytes.head? = some 46
  last : 46 ∉ ext.bytes.tail
  suffix : ext.bytes <:+ fname.bytes

instance (fname ext : CString) : Decidable (HasExtension fname ext) :=
  decidable_of_iff
    (ext.bytes.head? = some 46 ∧ 46 ∉ ext.bytes.tail ∧ ext.bytes <:+ fname.bytes)
    ⟨fun h => ⟨h.1, h.2.1, h.2.2⟩, fun h => ⟨h.head, h.last, h.suffix⟩⟩

def fullName (fname ext : CString) : CString :=
  if HasExtension fname ext then fname else fname.append ext

/-- The complete path of a file in a directory. -/
def fullPath (dir name : CString) : CString := (dir.append slash).append name

/-- Nothing outside the work areas is written or read, and nothing but the
complete paths of the directories is tested. -/
structure SearchesInside (sys : System) (st : Finder) (fname ext : CString) : Prop where
  inside : findFile sys st fname ext ≠ .error .invalidAccess
  complete : ∀ result tested st', findFile sys st fname ext = .ok (result, tested, st') →
    ∀ candidate ∈ tested, ∃ env dir, st'.commonEnv = some env ∧ dir ∈ env ∧
      candidate = fullPath dir (fullName fname ext)

def NameFits (fname ext : CString) : Prop :=
  HasExtension fname ext ∨ fname.strlen + ext.strlen + 1 ≤ posixPathMax

/-- The path fits for every directory up to the first that has the file. -/
def DirsFit (sys : System) (name : CString) (env : List CString) : Prop :=
  ∀ pre dir post, env = pre ++ dir :: post →
    (∀ earlier ∈ pre, sys.fileExists (fullPath earlier name) = false) →
      (fullPath dir name).strlen + 1 ≤ posixPathMax

/-- The finder path of the first call, with the parent directory resolved to this. -/
def finderPath (sys : System) (parent : CString) : List CString :=
  addEnv sys path
    (addEnv sys pgenPath [] ++ (sys.glob (parent.append slashStar)).filter sys.isDir)

/-- Every path fits, and at the first call the pattern for the parent directory,
unless that one cannot be resolved. -/
def PathsFit (sys : System) (st : Finder) (name : CString) : Prop :=
  match st.commonEnv with
  | some env => DirsFit sys name env
  | none => ∀ parent, sys.realpath dotDot = some parent →
      parent.strlen + 3 ≤ posixPathMax ∧ DirsFit sys name (finderPath sys parent)

structure Fits (sys : System) (st : Finder) (fname ext : CString) : Prop where
  name : NameFits fname ext
  paths : PathsFit sys st (fullName fname ext)

/-! ## The name -/

variable {fname ext : CString}

theorem strrchr_dot {pre post : List UInt8} (hfname : fname.bytes = pre ++ 46 :: post)
    (hpost : 46 ∉ post) : StringT.strrchr (fname.bytes ++ [0]) 46 = .ok (some pre.length) :=
  StringT.strrchr_eq (by decide) (List.prefix_refl _) hfname hpost

/-- The comparison at the last dot. -/
theorem hasExtension_iff {pre post : List UInt8} (hfname : fname.bytes = pre ++ 46 :: post)
    (hpost : 46 ∉ post) :
    HasExtension fname ext ↔ CString.read (fname.bytes.drop pre.length) = ext := by
  have hdrop : fname.bytes.drop pre.length = 46 :: post := by rw [hfname, List.drop_left]
  have hnul : 0 ∉ 46 :: post := by
    rw [← hdrop]
    exact fun hmem => fname.nul_notMem (List.mem_of_mem_drop hmem)
  have hread : CString.read (46 :: post) = ⟨46 :: post, hnul⟩ := CString.read_bytes ⟨_, hnul⟩
  rw [hdrop, hread]
  constructor
  · rintro ⟨hhead, hlast, ⟨front, hsuffix⟩⟩
    obtain ⟨tail, htail⟩ := List.head?_eq_some_iff.mp hhead
    rw [htail] at hlast hsuffix
    have hplaces := (strrchr_dot hsuffix.symm hlast).symm.trans (strrchr_dot hfname hpost)
    have hlength : front.length = pre.length := Option.some.inj (Except.ok.inj hplaces)
    have hsame := List.append_inj_right (hsuffix.trans hfname) hlength
    exact CString.ext (hsame.symm.trans htail.symm)
  · rintro rfl
    exact ⟨rfl, hpost, ⟨pre, hfname.symm⟩⟩

theorem completeName_cases (fname ext : CString) :
    (HasExtension fname ext ∧ completeName fname ext = .ok fname) ∨
      (¬ HasExtension fname ext ∧ completeName fname ext = addExtension fname ext) := by
  by_cases hdot : 46 ∈ fname.bytes
  · obtain ⟨pre, post, hfname, hpost⟩ := StringT.exists_last_of_mem hdot
    rw [hasExtension_iff hfname hpost, completeName, strrchr_dot hfname hpost, ok_bind]
    dsimp only
    by_cases hsame : CString.read (fname.bytes.drop pre.length) = ext
    · exact .inl ⟨hsame, if_neg (not_not_intro hsame)⟩
    · exact .inr ⟨hsame, if_pos hsame⟩
  · right
    constructor
    · intro h
      exact hdot (h.suffix.subset (List.mem_of_mem_head? h.head))
    · rw [completeName, StringT.strrchr_of_notMem (by decide) (List.prefix_refl _) hdot]
      rfl

theorem addExtension_fits (hfit : fname.strlen + ext.strlen + 1 ≤ posixPathMax) :
    addExtension fname ext = .ok (fname.append ext) := by
  have hlen : (List.replicate posixPathMax (0 : UInt8)).length = posixPathMax :=
    List.length_replicate
  have hroom : fname.strlen + 1 ≤ (List.replicate posixPathMax (0 : UInt8)).length := by omega
  obtain ⟨block, hcopy, hsize, hstarts⟩ := FixedBuffer.strcpy_fits _ hroom
  obtain ⟨block', hcat, -, hstarts'⟩ := StringT.strcat_text hstarts ext (by omega)
  rw [addExtension, hcopy, ok_bind, hcat, ok_bind]
  exact FixedBuffer.stringAt_prefix hstarts'

theorem addExtension_outside (hfull : posixPathMax < fname.strlen + ext.strlen + 1) :
    addExtension fname ext = .error .invalidAccess := by
  have hlen : (List.replicate posixPathMax (0 : UInt8)).length = posixPathMax :=
    List.length_replicate
  by_cases hcopy : fname.strlen + 1 ≤ posixPathMax
  · obtain ⟨block, hcopy, hsize, hstarts⟩ :=
      FixedBuffer.strcpy_fits (List.replicate posixPathMax 0) (hlen.symm ▸ hcopy)
    rw [addExtension, hcopy, ok_bind, FixedBuffer.strcat_outside hstarts (by omega), error_bind]
  · rw [addExtension, FixedBuffer.strcpy_outside (by omega), error_bind]

theorem completeName_eq (hfit : NameFits fname ext) :
    completeName fname ext = .ok (fullName fname ext) := by
  rw [fullName]
  rcases completeName_cases fname ext with ⟨hhas, hname⟩ | ⟨hhas, hname⟩
  · rw [if_pos hhas, hname]
  · rw [if_neg hhas, hname, addExtension_fits (hfit.resolve_left hhas)]

theorem completeName_outside (hfit : ¬ NameFits fname ext) :
    completeName fname ext = .error .invalidAccess := by
  rw [NameFits, not_or, Nat.not_le] at hfit
  rcases completeName_cases fname ext with ⟨hhas, hname⟩ | ⟨hhas, hname⟩
  · exact (hfit.1 hhas).elim
  · rw [hname, addExtension_outside hfit.2]

/-! ## The candidates -/

theorem strlen_append (s t : CString) : (s.append t).strlen = s.strlen + t.strlen :=
  List.length_append

theorem strlen_fullPath (dir name : CString) :
    (fullPath dir name).strlen = dir.strlen + 1 + name.strlen := by
  rw [fullPath, strlen_append, strlen_append]
  rfl

section Search

variable {sys : System} {buffer : List UInt8} {dir name : CString} {env : List CString}

theorem tryPath_fits (hsize : buffer.length = posixPathMax)
    (hfit : (fullPath dir name).strlen + 1 ≤ posixPathMax) :
    ∃ buffer', tryPath buffer dir name = .ok buffer' ∧ buffer'.length = posixPathMax ∧
      (fullPath dir name).bytes ++ [0] <+: buffer' := by
  have hlength := strlen_fullPath dir name
  have hshort : dir.strlen < posixPathMax := by omega
  obtain ⟨rest, hcopy, hsize'⟩ := FixedBuffer.strncpy_fits hsize hshort
  have hstarts : dir.bytes ++ [0] <+: dir.bytes ++ 0 :: rest :=
    ⟨rest, by rw [List.append_assoc, List.singleton_append]⟩
  have hslash : slash.strlen = 1 := rfl
  obtain ⟨buffer₁, hcat, hsize₁, hstarts₁⟩ := StringT.strcat_text hstarts slash (by omega)
  have hdir : (dir.append slash).strlen = dir.strlen + 1 := strlen_append dir slash
  obtain ⟨buffer₂, hcat', hsize₂, hstarts₂⟩ := StringT.strcat_text hstarts₁ name (by omega)
  refine ⟨buffer₂, ?_, by omega, hstarts₂⟩
  rw [tryPath, hcopy, ok_bind, hcat, ok_bind, hcat']

theorem tryPath_outside (hsize : buffer.length = posixPathMax)
    (hfull : posixPathMax < (fullPath dir name).strlen + 1) :
    tryPath buffer dir name = .error .invalidAccess := by
  rw [strlen_fullPath] at hfull
  have hslash : slash.strlen = 1 := rfl
  by_cases hcopy : dir.strlen < posixPathMax
  · obtain ⟨rest, hcopied, hsize'⟩ := FixedBuffer.strncpy_fits hsize hcopy
    have hstarts : dir.bytes ++ [0] <+: dir.bytes ++ 0 :: rest :=
      ⟨rest, by rw [List.append_assoc, List.singleton_append]⟩
    by_cases hone : dir.strlen + 2 ≤ posixPathMax
    · obtain ⟨buffer₁, hcat, hsize₁, hstarts₁⟩ := StringT.strcat_text hstarts slash (by omega)
      have hdir : (dir.append slash).strlen = dir.strlen + 1 := strlen_append dir slash
      rw [tryPath, hcopied, ok_bind, hcat, ok_bind, FixedBuffer.strcat_outside hstarts₁ (by omega)]
    · rw [tryPath, hcopied, ok_bind, FixedBuffer.strcat_outside hstarts (by omega), error_bind]
  · -- the copy has no end in the buffer
    have hlong := Nat.not_lt.mp hcopy
    have hnone : 0 ∉ dir.bytes.take posixPathMax := fun hmem =>
      dir.nul_notMem (List.mem_of_mem_take hmem)
    rw [tryPath, FixedBuffer.strncpy_full hsize hlong, ok_bind,
      FixedBuffer.strcat_unterminated hnone, error_bind]

theorem searchDirs_found (hsize : buffer.length = posixPathMax)
    (hfit : (fullPath dir name).strlen + 1 ≤ posixPathMax)
    (hexists : sys.fileExists (fullPath dir name) = true) :
    ∃ buffer', buffer'.length = posixPathMax ∧ searchDirs sys name (dir :: env) buffer =
      .ok (some (fullPath dir name), [fullPath dir name], buffer') := by
  obtain ⟨buffer', htry, hsize', hstarts⟩ := tryPath_fits hsize hfit
  refine ⟨buffer', hsize', ?_⟩
  rw [searchDirs, htry, ok_bind, FixedBuffer.stringAt_prefix hstarts, ok_bind, if_pos hexists]

theorem searchDirs_missing (hsize : buffer.length = posixPathMax)
    (hfit : (fullPath dir name).strlen + 1 ≤ posixPathMax)
    (hexists : sys.fileExists (fullPath dir name) = false) :
    ∃ buffer', buffer'.length = posixPathMax ∧ searchDirs sys name (dir :: env) buffer =
      (searchDirs sys name env buffer').map fun r => (r.1, fullPath dir name :: r.2.1, r.2.2) := by
  obtain ⟨buffer', htry, hsize', hstarts⟩ := tryPath_fits hsize hfit
  refine ⟨buffer', hsize', ?_⟩
  rw [searchDirs, htry, ok_bind, FixedBuffer.stringAt_prefix hstarts, ok_bind,
    if_neg (Bool.eq_false_iff.mp hexists)]
  cases searchDirs sys name env buffer' <;> rfl

theorem dirsFit_cons : DirsFit sys name (dir :: env) ↔
    (fullPath dir name).strlen + 1 ≤ posixPathMax ∧
      (sys.fileExists (fullPath dir name) = false → DirsFit sys name env) := by
  constructor
  · intro h
    refine ⟨h [] dir env rfl (by simp), ?_⟩
    intro hmissing pre dir' post henv hpre
    subst henv
    exact h (dir :: pre) dir' post rfl (List.forall_mem_cons.mpr ⟨hmissing, hpre⟩)
  · rintro ⟨hfit, hrest⟩ pre dir' post henv hpre
    cases pre with
    | nil =>
        obtain ⟨rfl, -⟩ := List.cons.inj henv
        exact hfit
    | cons first pre =>
        obtain ⟨rfl, rfl⟩ := List.cons.inj henv
        obtain ⟨hmissing, hpre⟩ := List.forall_mem_cons.mp hpre
        exact hrest hmissing pre dir' post rfl hpre

theorem searchDirs_fits (hsize : buffer.length = posixPathMax) (hfit : DirsFit sys name env) :
    ∃ found tested buffer', searchDirs sys name env buffer = .ok (found, tested, buffer') ∧
      buffer'.length = posixPathMax ∧
      ∀ candidate ∈ tested, ∃ dir ∈ env, candidate = fullPath dir name := by
  induction env generalizing buffer with
  | nil => exact ⟨none, [], buffer, rfl, hsize, by simp⟩
  | cons dir env ih =>
      obtain ⟨hdir, hrest⟩ := dirsFit_cons.mp hfit
      cases hexists : sys.fileExists (fullPath dir name) with
      | true =>
          obtain ⟨buffer', hsize', hrun⟩ := searchDirs_found hsize hdir hexists
          refine ⟨_, _, buffer', hrun, hsize', ?_⟩
          intro candidate hmem
          exact ⟨dir, List.mem_cons_self, List.mem_singleton.mp hmem⟩
      | false =>
          obtain ⟨buffer', hsize', hrun⟩ := searchDirs_missing hsize hdir hexists
          obtain ⟨found, tested, buffer₂, hsearch, hsize₂, htested⟩ := ih hsize' (hrest hexists)
          rw [hsearch] at hrun
          refine ⟨found, _, buffer₂, hrun, hsize₂, ?_⟩
          intro candidate hmem
          rcases List.mem_cons.mp hmem with rfl | hmem
          · exact ⟨dir, List.mem_cons_self, rfl⟩
          · obtain ⟨dir', hdir', rfl⟩ := htested candidate hmem
            exact ⟨dir', List.mem_cons_of_mem dir hdir', rfl⟩

theorem searchDirs_outside (hsize : buffer.length = posixPathMax) (hfit : ¬ DirsFit sys name env) :
    searchDirs sys name env buffer = .error .invalidAccess := by
  induction env generalizing buffer with
  | nil =>
      refine (hfit ?_).elim
      intro pre dir post henv
      simp at henv
  | cons dir env ih =>
      rw [dirsFit_cons] at hfit
      by_cases hdir : (fullPath dir name).strlen + 1 ≤ posixPathMax
      · have hmissing : sys.fileExists (fullPath dir name) = false := by
          by_contra hexists
          exact hfit ⟨hdir, fun h => (hexists h).elim⟩
        obtain ⟨buffer', hsize', hrun⟩ := searchDirs_missing hsize hdir hmissing
        rw [hrun, ih hsize' fun h => hfit ⟨hdir, fun _ => h⟩]
        rfl
      · rw [searchDirs, tryPath_outside hsize (Nat.not_le.mp hdir), error_bind]

/-! ## The finder path -/

theorem setupEnv_unresolved (hresolve : sys.realpath dotDot = none) :
    setupEnv sys buffer = .error .fatal := by
  simp only [setupEnv, addDirs, getPath, hresolve, error_bind]

theorem setupEnv_fits (hsize : buffer.length = posixPathMax) {parent : CString}
    (hresolve : sys.realpath dotDot = some parent) (hfit : parent.strlen + 3 ≤ posixPathMax) :
    ∃ buffer', setupEnv sys buffer = .ok (finderPath sys parent, buffer') ∧
      buffer'.length = posixPathMax := by
  have hroom : parent.strlen + 1 ≤ buffer.length := by omega
  obtain ⟨buffer₁, hcopy, hsize₁, hstarts₁⟩ := FixedBuffer.strcpy_fits buffer hroom
  have hstar : slashStar.strlen = 2 := rfl
  obtain ⟨buffer₂, hcat, hsize₂, hstarts₂⟩ := StringT.strcat_text hstarts₁ slashStar (by omega)
  refine ⟨buffer₂, ?_, by omega⟩
  have hpattern := FixedBuffer.stringAt_prefix hstarts₂
  simp only [setupEnv, addDirs, getPath, hresolve, hcopy, hcat, hpattern, ok_bind]
  rfl

theorem setupEnv_outside (hsize : buffer.length = posixPathMax) {parent : CString}
    (hresolve : sys.realpath dotDot = some parent) (hfull : posixPathMax < parent.strlen + 3) :
    setupEnv sys buffer = .error .invalidAccess := by
  have hstar : slashStar.strlen = 2 := rfl
  by_cases hcopy : parent.strlen + 1 ≤ posixPathMax
  · obtain ⟨buffer₁, hcopied, hsize₁, hstarts₁⟩ :=
      FixedBuffer.strcpy_fits buffer (hsize.symm ▸ hcopy)
    have hover : buffer₁.length < parent.strlen + slashStar.strlen + 1 := by omega
    have hcat := FixedBuffer.strcat_outside hstarts₁ hover
    simp only [setupEnv, addDirs, getPath, hresolve, hcopied, hcat, ok_bind, error_bind]
  · have hover : buffer.length < parent.strlen + 1 := by omega
    have hcopied := FixedBuffer.strcpy_outside hover
    simp only [setupEnv, addDirs, getPath, hresolve, hcopied, error_bind]

/-- Where the finder path comes from decides whether there is one to be searched. -/
theorem getEnv_cases (sys : System) {st : Finder} (hsize : st.buffer.length = posixPathMax)
    (name : CString) :
    (getEnv sys st = .error .fatal ∧ PathsFit sys st name) ∨
      (getEnv sys st = .error .invalidAccess ∧ ¬ PathsFit sys st name) ∨
      ∃ env buffer, getEnv sys st = .ok (env, buffer) ∧ buffer.length = posixPathMax ∧
        (PathsFit sys st name ↔ DirsFit sys name env) := by
  cases henv : st.commonEnv with
  | some env =>
      simp only [getEnv, PathsFit, henv]
      exact .inr (.inr ⟨env, st.buffer, rfl, hsize, Iff.rfl⟩)
  | none =>
      simp only [getEnv, PathsFit, henv]
      cases hresolve : sys.realpath dotDot with
      | none => exact .inl ⟨setupEnv_unresolved hresolve, fun parent h => by cases h⟩
      | some parent =>
          have hpaths : (∀ parent', some parent = some parent' →
              parent'.strlen + 3 ≤ posixPathMax ∧ DirsFit sys name (finderPath sys parent')) ↔
                parent.strlen + 3 ≤ posixPathMax ∧ DirsFit sys name (finderPath sys parent) :=
            ⟨fun h => h parent rfl, fun h _ heq => Option.some.inj heq ▸ h⟩
          rw [hpaths]
          by_cases hfit : parent.strlen + 3 ≤ posixPathMax
          · obtain ⟨buffer', hsetup, hsize'⟩ := setupEnv_fits hsize hresolve hfit
            exact .inr (.inr ⟨_, buffer', hsetup, hsize', and_iff_right hfit⟩)
          · refine .inr (.inl ⟨?_, fun h => hfit h.1⟩)
            exact setupEnv_outside hsize hresolve (Nat.not_le.mp hfit)

theorem findFile_fits {st : Finder} (hsize : st.buffer.length = posixPathMax)
    (hfit : Fits sys st fname ext) :
    findFile sys st fname ext = .error .fatal ∨ ∃ result tested st' env,
      findFile sys st fname ext = .ok (result, tested, st') ∧ st'.commonEnv = some env ∧
      st'.buffer.length = posixPathMax ∧
      ∀ candidate ∈ tested, ∃ dir ∈ env, candidate = fullPath dir (fullName fname ext) := by
  rw [findFile, completeName_eq hfit.name, ok_bind]
  rcases getEnv_cases sys hsize (fullName fname ext) with
    ⟨henv, -⟩ | ⟨-, hno⟩ | ⟨env, buffer, henv, hsize', hpaths⟩
  · rw [henv]
    exact .inl rfl
  · exact (hno hfit.paths).elim
  · obtain ⟨found, tested, buffer', hsearch, hsize₂, htested⟩ :=
      searchDirs_fits hsize' (hpaths.mp hfit.paths)
    right
    refine ⟨found.getD fname, tested, ⟨some env, buffer'⟩, env, ?_, rfl, hsize₂, htested⟩
    rw [henv, ok_bind]
    dsimp only
    rw [hsearch, ok_bind]

theorem findFile_outside {st : Finder} (hsize : st.buffer.length = posixPathMax)
    (hfit : ¬ Fits sys st fname ext) : findFile sys st fname ext = .error .invalidAccess := by
  rw [findFile]
  by_cases hname : NameFits fname ext
  · rw [completeName_eq hname, ok_bind]
    rcases getEnv_cases sys hsize (fullName fname ext) with
      ⟨-, hpaths⟩ | ⟨henv, -⟩ | ⟨env, buffer, henv, hsize', hpaths⟩
    · exact (hfit ⟨hname, hpaths⟩).elim
    · rw [henv, error_bind]
    · have hno : ¬ DirsFit sys (fullName fname ext) env := fun h => hfit ⟨hname, hpaths.mpr h⟩
      rw [henv, ok_bind]
      dsimp only
      rw [searchDirs_outside hsize' hno, error_bind]
  · rw [completeName_outside hname, error_bind]

end Search

/-- The search stays in its work areas, with complete paths only, exactly when
all that is put together fits. Nothing that does not fit is skipped or rejected. -/
theorem searches_inside_iff (sys : System) (st : Finder) (fname ext : CString)
    (hsize : st.buffer.length = posixPathMax) :
    SearchesInside sys st fname ext ↔ Fits sys st fname ext := by
  constructor
  · rintro ⟨hinside, -⟩
    by_contra hfit
    exact hinside (findFile_outside hsize hfit)
  · intro hfit
    rcases findFile_fits hsize hfit with hfatal | ⟨result, tested, st', env, hrun, henv, -, htested⟩
    · constructor
      · intro hrun
        cases hfatal.symm.trans hrun
      · intro result tested st' hrun
        cases hfatal.symm.trans hrun
    · constructor
      · intro hrun'
        cases hrun.symm.trans hrun'
      · intro result' tested' st'' hrun' candidate hmem
        cases hrun.symm.trans hrun'
        obtain ⟨dir, hdir, hpath⟩ := htested candidate hmem
        exact ⟨env, dir, henv, hdir, hpath⟩

/-- `..` is `/p`, where the two directories are `/p/i` and `/p/l` and the one
file is `/p/l/a.s`. -/
def parentSystem : System where
  getenv := fun _ => none
  realpath := fun str => if str = dotDot then some (CString.read [47, 112]) else none
  glob := fun pattern =>
    if pattern = CString.read [47, 112, 47, 42] then
      [CString.read [47, 112, 47, 105], CString.read [47, 112, 47, 108]]
    else []
  isDir := fun _ => true
  fileExists := fun name => name = CString.read [47, 112, 47, 108, 47, 97, 46, 115]

/-- The first call tests one path in each directory. -/
theorem searches_inside_parent :
    SearchesInside parentSystem initial (CString.read [97]) (CString.read [46, 115]) ∧
      (findFile parentSystem initial (CString.read [97]) (CString.read [46, 115])).map
          (fun (result, tested, _) => (result, tested)) =
        .ok (CString.read [47, 112, 47, 108, 47, 97, 46, 115],
          [CString.read [47, 112, 47, 105, 47, 97, 46, 115],
            CString.read [47, 112, 47, 108, 47, 97, 46, 115]]) := by
  have hpath : finderPath parentSystem (CString.read [47, 112]) =
      [CString.read [47, 112, 47, 105], CString.read [47, 112, 47, 108]] := by decide
  have hfits : Fits parentSystem initial (CString.read [97]) (CString.read [46, 115]) := by
    refine ⟨Or.inr (by decide), fun parent hparent => ?_⟩
    obtain rfl : CString.read [47, 112] = parent := Option.some.inj hparent
    refine ⟨by decide, fun pre dir post henv _ => ?_⟩
    have hdir : dir ∈ [CString.read [47, 112, 47, 105], CString.read [47, 112, 47, 108]] := by
      rw [← hpath, henv]
      exact List.mem_append_right _ List.mem_cons_self
    have hshort : ∀ dir ∈ [CString.read [47, 112, 47, 105], CString.read [47, 112, 47, 108]],
        (fullPath dir (fullName (CString.read [97]) (CString.read [46, 115]))).strlen + 1 ≤
          posixPathMax := by decide
    exact hshort dir hdir
  exact ⟨(searches_inside_iff _ _ _ _ List.length_replicate).mpr hfits, by decide +kernel⟩

/-- `getenv` finds nothing, `..` is the root, and no file exists. -/
def bareSystem : System where
  getenv := fun _ => none
  realpath := fun _ => some slash
  glob := fun _ => []
  isDir := fun _ => true
  fileExists := fun _ => false

/-- A name of so many letters. -/
def letters (n : ℕ) : CString where
  bytes := List.replicate n 97
  nul_notMem := by
    rw [List.mem_replicate]
    exact fun h => absurd h.2 (by decide)

/-- A name that fills the buffer leaves no room for the extension. -/
theorem not_searches_inside_long :
    ¬ SearchesInside bareSystem initial (letters 256) (CString.read [46, 115]) := by
  rintro ⟨hinside, -⟩
  apply hinside
  apply findFile_outside List.length_replicate
  rintro ⟨hname | hroom, -⟩
  · have hdot : 46 ∈ (letters 256).bytes := hname.suffix.subset List.mem_cons_self
    cases List.eq_of_mem_replicate hdot
  · have hlength : (letters 256).strlen = 256 := List.length_replicate
    rw [hlength] at hroom
    exact absurd hroom (by decide)

end SimpleVm.FindFile
