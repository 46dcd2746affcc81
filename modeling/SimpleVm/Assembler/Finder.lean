import SimpleVm.Assembler.FileIo
import SimpleVm.Common.FindFile

/-!
# The finder path over a run

`find_file` puts its names together in two blocks of bytes and keeps the finder
path from the first call on. What it returns is what a search for the first
file among the complete paths of these directories returns, whatever the
environment has become since.
-/

namespace SimpleVm.FindFile

/-! ## One call -/

/-- The file is the first one of its name in these directories. Where there is none, it is the
name as it was given. -/
inductive FoundIn (exists? : CString → Bool) (env : List CString) (fname ext : CString) :
    CString → Prop
  | inDir {pre post : List CString} {dir : CString} (henv : env = pre ++ dir :: post)
      (hdir : exists? (fullPath dir (fullName fname ext)) = true)
      (hpre : ∀ earlier ∈ pre, exists? (fullPath earlier (fullName fname ext)) = false) :
      FoundIn exists? env fname ext (fullPath dir (fullName fname ext))
  | nowhere (hnone : ∀ dir ∈ env, exists? (fullPath dir (fullName fname ext)) = false) :
      FoundIn exists? env fname ext fname

section Search

variable {sys : System} {env : List CString} {buffer : List UInt8} {fname ext name : CString}
  {fopen : CString → Option (List UInt8)}

/-- The files that a search in these directories sees. -/
def fileSystem (env : List CString) (sys : System) (fopen : CString → Option (List UInt8)) :
    FileSystem := ⟨env, sys.fileExists, fopen⟩

theorem strrchr_eq_some_iff :
    FileIo.strrchr fname 46 = some ext.bytes ↔ HasExtension fname ext := by
  by_cases hdot : 46 ∈ fname.bytes
  · obtain ⟨pre, post, hfname, hpost⟩ := StringT.exists_last_of_mem hdot
    have hlast : FileIo.strrchr fname 46 = some (46 :: post) := by
      have hrest : 46 ∉ post.reverse := by rwa [List.mem_reverse]
      have hstop : (post.reverse ++ 46 :: pre.reverse).takeWhile (· ≠ 46) = post.reverse := by
        rw [List.takeWhile_append_of_pos]
        · simp
        · intro b hb
          simpa using ne_of_mem_of_not_mem hb hrest
      rw [FileIo.strrchr, if_pos hdot, hfname, List.reverse_append, List.reverse_cons,
        List.append_assoc, List.singleton_append, hstop, List.reverse_reverse]
    have hdrop : fname.bytes.drop pre.length = 46 :: post := by rw [hfname, List.drop_left]
    have hnul : 0 ∉ 46 :: post := by
      rw [← hdrop]
      exact fun hmem => fname.nul_notMem (List.mem_of_mem_drop hmem)
    have hread : CString.read (46 :: post) = ⟨46 :: post, hnul⟩ := CString.read_bytes ⟨_, hnul⟩
    rw [hlast, hasExtension_iff hfname hpost, hdrop, hread, CString.ext_iff, Option.some_inj]
  · have hno : ¬ HasExtension fname ext := fun h =>
      hdot (h.suffix.subset (List.mem_of_mem_head? h.head))
    simp [FileIo.strrchr, hdot, hno]

theorem tmpName_eq : FileIo.tmpName fname ext = completeName fname ext := by
  rw [FileIo.tmpName]
  by_cases hhas : HasExtension fname ext
  · rw [if_pos (strrchr_eq_some_iff.mpr hhas), completeName_eq (.inl hhas), fullName, if_pos hhas]
  · have hlength := strlen_append fname ext
    rw [if_neg fun h => hhas (strrchr_eq_some_iff.mp h)]
    by_cases hfit : fname.strlen + ext.strlen + 1 ≤ posixPathMax
    · rw [if_pos (by rw [hlength]; exact hfit), completeName_eq (.inr hfit), fullName, if_neg hhas]
    · have hno : ¬ NameFits fname ext := fun h => h.elim hhas hfit
      rw [if_neg (by rw [hlength]; exact hfit), completeName_outside hno]

/-- The bytes in the work area come to the same as the complete paths. -/
theorem searchDirs_eq {fs : FileSystem} (hfs : fs.fileExists = sys.fileExists)
    (hsize : buffer.length = posixPathMax) :
    (∃ found tested buffer', searchDirs sys name env buffer = .ok (found, tested, buffer') ∧
        buffer'.length = posixPathMax ∧ FileIo.searchEnv fs name env = .ok found) ∨
      (searchDirs sys name env buffer = .error .invalidAccess ∧
        FileIo.searchEnv fs name env = .error .invalidAccess) := by
  induction env generalizing buffer with
  | nil => exact .inl ⟨none, [], buffer, rfl, hsize, rfl⟩
  | cons dir env ih =>
      have hpath : (dir.append FileIo.slash).append name = fullPath dir name := rfl
      rw [FileIo.searchEnv, hpath, hfs]
      by_cases hfit : (fullPath dir name).strlen + 1 ≤ posixPathMax
      · rw [if_pos (show _ < FileIo.posixPathMax from hfit)]
        cases hexists : sys.fileExists (fullPath dir name) with
        | true =>
            obtain ⟨buffer', hsize', hrun⟩ := searchDirs_found hsize hfit hexists
            exact .inl ⟨_, _, buffer', hrun, hsize', if_pos rfl⟩
        | false =>
            obtain ⟨buffer', hsize', hrun⟩ := searchDirs_missing hsize hfit hexists
            rw [if_neg Bool.false_ne_true, hrun]
            rcases ih hsize' with ⟨found, tested, buffer₂, hsearch, hsize₂, henv⟩ | ⟨hsearch, henv⟩
            · rw [hsearch]
              exact .inl ⟨found, _, buffer₂, rfl, hsize₂, henv⟩
            · rw [hsearch]
              exact .inr ⟨rfl, henv⟩
      · rw [if_neg (show ¬ _ < FileIo.posixPathMax from hfit), searchDirs,
          tryPath_outside hsize (Nat.not_le.mp hfit)]
        exact .inr ⟨rfl, rfl⟩

theorem foundIn_of_searchEnv {fs : FileSystem} {found : Option CString}
    (hrun : FileIo.searchEnv fs (fullName fname ext) env = .ok found) :
    FoundIn fs.fileExists env fname ext (found.getD fname) := by
  induction env with
  | nil =>
      cases hrun
      exact .nowhere (List.forall_mem_nil _)
  | cons dir env ih =>
      rw [FileIo.searchEnv] at hrun
      split at hrun
      · split at hrun
        · next hexists =>
            cases hrun
            exact .inDir (List.nil_append _).symm hexists (List.forall_mem_nil _)
        · next hmissing =>
            have hdir : fs.fileExists (fullPath dir (fullName fname ext)) = false :=
              Bool.eq_false_iff.mpr hmissing
            generalize found.getD fname = path at ih
            cases ih hrun with
            | inDir henv hexists hpre =>
                exact .inDir (congrArg (dir :: ·) henv) hexists
                  (List.forall_mem_cons.mpr ⟨hdir, hpre⟩)
            | nowhere hnone => exact .nowhere (List.forall_mem_cons.mpr ⟨hdir, hnone⟩)
      · cases hrun

theorem foundIn_of_findFile {path : CString}
    (hrun : FileIo.findFile (fileSystem env sys fopen) fname ext = .ok path) :
    FoundIn sys.fileExists env fname ext path := by
  obtain ⟨name, hname, hrest⟩ := bind_eq_ok.mp hrun
  obtain ⟨found, hsearch, hend⟩ := bind_eq_ok.mp hrest
  cases hend
  have hfit : NameFits fname ext := by
    by_contra hno
    rw [tmpName_eq, completeName_outside hno] at hname
    cases hname
  rw [tmpName_eq, completeName_eq hfit] at hname
  cases hname
  exact foundIn_of_searchEnv hsearch

/-- One call with the directories it searches. -/
theorem findFile_eq {st : Finder} (henv : getEnv sys st = .ok (env, buffer))
    (hsize : buffer.length = posixPathMax) :
    (∃ path tested buffer', findFile sys st fname ext = .ok (path, tested, ⟨some env, buffer'⟩) ∧
        buffer'.length = posixPathMax ∧
        FileIo.findFile (fileSystem env sys fopen) fname ext = .ok path) ∨
      ∃ e, findFile sys st fname ext = .error e ∧
        FileIo.findFile (fileSystem env sys fopen) fname ext = .error e := by
  rw [findFile, FileIo.findFile, tmpName_eq, henv]
  cases completeName fname ext with
  | error e => exact .inr ⟨e, rfl, rfl⟩
  | ok name =>
      have hfs : (fileSystem env sys fopen).fileExists = sys.fileExists := rfl
      have hdirs : (fileSystem env sys fopen).commonEnv = env := rfl
      obtain ⟨found, tested, buffer', hsearch, hsize', hfound⟩ | ⟨hsearch, hfound⟩ :=
        @searchDirs_eq sys env buffer name _ hfs hsize
      · left
        refine ⟨found.getD fname, tested, buffer', ?_, hsize', ?_⟩
        · simp only [ok_bind, hsearch]
        · simp only [ok_bind, hdirs, hfound]
      · right
        refine ⟨.invalidAccess, ?_, ?_⟩
        · simp only [ok_bind, hsearch, error_bind]
        · simp only [ok_bind, hdirs, hfound, error_bind]

end Search

/-! ## A run -/

/-- A call, with the system as it is then. -/
structure Request where
  sys : System
  fname : CString
  ext : CString

def findFiles : Finder → List Request → Except Halt (List CString)
  | _, [] => .ok []
  | st, r :: rs => do
      let (path, _, st) ← findFile r.sys st r.fname r.ext
      let paths ← findFiles st rs
      .ok (path :: paths)

/-- What a request comes to in these directories. -/
def Request.search (fopen : CString → Option (List UInt8)) (env : List CString) (r : Request) :
    Except Halt CString := FileIo.findFile (fileSystem env r.sys fopen) r.fname r.ext

def Request.Finds (env : List CString) (r : Request) (path : CString) : Prop :=
  FoundIn r.sys.fileExists env r.fname r.ext path

section Runs

variable {fopen : CString → Option (List UInt8)} {env : List CString} {buffer : List UInt8}

theorem findFiles_cons {st : Finder} {r : Request} (henv : getEnv r.sys st = .ok (env, buffer))
    (hsize : buffer.length = posixPathMax) {rs : List Request}
    (hrest : ∀ buffer', buffer'.length = posixPathMax →
      findFiles ⟨some env, buffer'⟩ rs = rs.mapM (Request.search fopen env)) :
    findFiles st (r :: rs) = (r :: rs).mapM (Request.search fopen env) := by
  rw [List.mapM_cons, findFiles]
  obtain ⟨path, tested, buffer', hrun, hsize', hsearch⟩ | ⟨e, hrun, hsearch⟩ :=
    @findFile_eq r.sys env buffer r.fname r.ext fopen st henv hsize
  · have hfirst : r.search fopen env = .ok path := hsearch
    simp only [hrun, hfirst, ok_bind, hrest buffer' hsize']
    rfl
  · have hfirst : r.search fopen env = .error e := hsearch
    simp only [hrun, hfirst, error_bind]

theorem findFiles_known (hsize : buffer.length = posixPathMax) (rs : List Request) :
    findFiles ⟨some env, buffer⟩ rs = rs.mapM (Request.search fopen env) := by
  induction rs generalizing buffer with
  | nil => rfl
  | cons r rs ih => exact findFiles_cons rfl hsize fun _ hsize' => ih hsize'

/-- All calls search the directories that the first one finds in its environment. -/
theorem findFiles_eq {first : Request} {parent : CString}
    (hresolve : first.sys.realpath dotDot = some parent)
    (hfit : parent.strlen + 3 ≤ posixPathMax) (rest : List Request) :
    findFiles initial (first :: rest) =
      (first :: rest).mapM (Request.search fopen (finderPath first.sys parent)) := by
  have hsize : initial.buffer.length = posixPathMax := List.length_replicate
  obtain ⟨buffer', hsetup, hsize'⟩ := setupEnv_fits hsize hresolve hfit
  have hget : getEnv first.sys initial = .ok (finderPath first.sys parent, buffer') := hsetup
  exact findFiles_cons hget hsize' fun _ hsize => findFiles_known hsize rest

theorem forall₂_of_mapM {α β ε : Type} {f : α → Except ε β} {xs : List α} {ys : List β}
    (h : xs.mapM f = .ok ys) : List.Forall₂ (fun x y => f x = .ok y) xs ys := by
  induction xs generalizing ys with
  | nil =>
      cases h
      exact .nil
  | cons x xs ih =>
      rw [List.mapM_cons] at h
      obtain ⟨y, hy, hrest⟩ := bind_eq_ok.mp h
      obtain ⟨ys', hys, hend⟩ := bind_eq_ok.mp hrest
      cases hend
      exact .cons hy (ih hys)

end Runs

/-- Every call of a run that gets to its end does on bytes what a search in the directories of the
first call does. It returns the first file of its name there, or the name as it was given. -/
theorem findFiles_spec {first : Request} {rest : List Request} {paths : List CString}
    (hrun : findFiles initial (first :: rest) = .ok paths) :
    ∃ parent, first.sys.realpath dotDot = some parent ∧
      (∀ fopen, (first :: rest).mapM (Request.search fopen (finderPath first.sys parent)) =
        .ok paths) ∧
      List.Forall₂ (Request.Finds (finderPath first.sys parent)) (first :: rest) paths := by
  have hsize : initial.buffer.length = posixPathMax := List.length_replicate
  have hget : ∀ e, setupEnv first.sys initial.buffer ≠ .error e := by
    intro e hsetup
    obtain ⟨⟨path, tested, st⟩, hfirst, -⟩ := bind_eq_ok.mp hrun
    obtain ⟨name, -, hrest⟩ := bind_eq_ok.mp hfirst
    have hno : getEnv first.sys initial = .error e := hsetup
    rw [hno] at hrest
    cases hrest
  cases hresolve : first.sys.realpath dotDot with
  | none => exact absurd (setupEnv_unresolved hresolve) (hget _)
  | some parent =>
      by_cases hfit : parent.strlen + 3 ≤ posixPathMax
      · have hsearch : ∀ fopen,
            (first :: rest).mapM (Request.search fopen (finderPath first.sys parent)) =
              .ok paths := by
          intro fopen
          rw [← findFiles_eq hresolve hfit, hrun]
        refine ⟨parent, rfl, hsearch, (forall₂_of_mapM (hsearch fun _ => none)).imp ?_⟩
        exact fun r path hpath => foundIn_of_findFile hpath
      · exact absurd (setupEnv_outside hsize hresolve (Nat.not_le.mp hfit)) (hget _)

/-- The file is `b/a.s`, and `PATH` is `b`. -/
def oneFileSystem : System :=
  { bareSystem with
    getenv := fun name => if name = path then some (CString.read [98]) else none
    fileExists := fun name => name = CString.read [98, 47, 97, 46, 115] }

/-- `PATH` has gone when the file is looked for again. -/
def twice : List Request :=
  [⟨oneFileSystem, CString.read [97], CString.read [46, 115]⟩,
    ⟨{ oneFileSystem with getenv := fun _ => none }, CString.read [97], CString.read [46, 115]⟩]

theorem findFiles_twice : ∃ parent paths, findFiles initial twice = .ok paths ∧
    List.Forall₂ (Request.Finds (finderPath oneFileSystem parent)) twice paths := by
  obtain ⟨paths, hrun⟩ := exists_of_isOk (x := findFiles initial twice) (by decide +kernel)
  obtain ⟨parent, -, -, hfound⟩ := findFiles_spec hrun
  exact ⟨parent, paths, hrun, hfound⟩

end SimpleVm.FindFile
