import Atmosphere.Kvdb.Archive

/-!
# The archive on disk

`Commit` writes a new archive to a temporary file. Unless it is destructive, it deletes the archive
of before only then, and renames the temporary file. Between these two operations there is no
archive, and `Load` takes a missing file for an empty store.
-/

namespace Atmosphere.Kvdb

open Function (update update_self update_of_ne)

inductive ArchiveFile
  | path
  | tempPath
  deriving DecidableEq

/-- The contents of the files that there are. -/
abbrev Files := ArchiveFile → Option (List UInt8)

/-! The file operations; `none` where one fails. -/

def deleteFile (f : ArchiveFile) (files : Files) : Option Files :=
  (files f).map fun _ => update files f none

def createFile (f : ArchiveFile) (size : ℕ) (files : Files) : Option Files :=
  if files f = none then some (update files f (some (List.replicate size 0))) else none

def openFile (f : ArchiveFile) (files : Files) : Option Files := (files f).map fun _ => files

def writeFile (f : ArchiveFile) (data : List UInt8) (files : Files) : Option Files :=
  (files f).map fun old => update files f (some (data ++ old.drop data.length))

def renameFile (f g : ArchiveFile) (files : Files) : Option Files :=
  match files f, files g with
  | some data, none => some (update (update files f none) g (some data))
  | _, _ => none

/-- The operations of `SaveArchiveToFile`, each with whether its failure is returned. -/
def saveArchiveToFile (f : ArchiveFile) (data : List UInt8) :
    List ((Files → Option Files) × Bool) :=
  [(deleteFile f, false), (createFile f data.length, true), (openFile f, true),
    (writeFile f data, true)]

def commit (destructive : Bool) (data : List UInt8) : List ((Files → Option Files) × Bool) :=
  if destructive then saveArchiveToFile .path data
  else saveArchiveToFile .tempPath data ++
    [(deleteFile .path, false), (renameFile .tempPath .path, true)]

/-- The files after at most `limit` operations. The operation with number `i` can fail for any
reason, where `works i` is false. -/
def runOps (works : ℕ → Bool) : ℕ → ℕ → List ((Files → Option Files) × Bool) → Files → Files
  | limit + 1, i, (op, returned) :: ops, files =>
    match if works i then op files else none with
    | some files => runOps works limit (i + 1) ops files
    | none => if returned then files else runOps works limit (i + 1) ops files
  | _, _, _, files => files

/-- `Save` with a buffer for the archive, cut off after `limit` operations. -/
def saveFile (works : ℕ → Bool) (limit : ℕ) (destructive : Bool) (buffer : List UInt8)
    (entries : List ArchiveEntry) (files : Files) : Files :=
  match save buffer entries with
  | none => files
  | some w => runOps works limit 0 (commit destructive w.buffer) files

/-- `Load` with `ReadArchiveFile`. -/
def loadFile (keySize capacity : ℕ) (files : Files) :
    Option (Except KvdbResult (List ArchiveEntry)) :=
  match files .path with
  | none => some (.ok [])
  | some buffer => load keySize capacity buffer

/-! ### A save that is cut off -/

variable {works : ℕ → Bool} {limit i keySize capacity : ℕ} {files : Files}
  {buffer data : List UInt8} {entries : List ArchiveEntry}

/-- The operations end before the first of them, or it is made, or its failure is ignored. -/
theorem runOps_cons {op : Files → Option Files} {returned : Bool}
    {ops : List ((Files → Option Files) × Bool)} {P : Files → Prop} (hstop : P files)
    (hnext : ∀ n files', limit = n + 1 →
      (works i = true ∧ op files = some files' ∨ returned = false ∧ files' = files) →
      P (runOps works n (i + 1) ops files')) :
    P (runOps works limit i ((op, returned) :: ops) files) := by
  cases limit with
  | zero => exact hstop
  | succ n =>
    unfold runOps
    split
    · rename_i files' happly
      split_ifs at happly with hworks
      exact hnext n files' rfl (.inl ⟨hworks, happly⟩)
    · split_ifs with hreturned
      · exact hstop
      · exact hnext n files rfl (.inr ⟨Bool.eq_false_iff.mpr hreturned, rfl⟩)

/-- The archive is the one of before or the new one. -/
def OldOrNew (old : Files) (data : List UInt8) (files : Files) : Prop :=
  files .path = old .path ∨ files .path = some data

/-- The save ends between the deletion of an archive and the renaming of the new one. -/
structure Interrupted (works : ℕ → Bool) (limit : ℕ) (files : Files) : Prop where
  archive : files .path ≠ none
  temporary : works 0 = true ∨ files .tempPath = none
  written : works 1 = true ∧ works 2 = true ∧ works 3 = true
  deleted : works 4 = true ∧ 5 ≤ limit
  cut : limit = 5 ∨ works 5 = false

theorem oldOrNew_commit (hnot : ¬ Interrupted works limit files) :
    OldOrNew files data (runOps works limit 0 (commit false data) files) := by
  refine runOps_cons (.inl rfl) fun n₁ f₁ hn₁ h₁ => ?_
  have hpath : f₁ .path = files .path := by
    obtain ⟨-, h₁⟩ | ⟨-, rfl⟩ := h₁
    · obtain ⟨_, -, rfl⟩ := Option.map_eq_some_iff.mp h₁
      rfl
    · rfl
  refine runOps_cons (.inl hpath) fun n₂ f₂ hn₂ h₂ => ?_
  obtain ⟨hworks₁, h₂⟩ | ⟨⟨⟩, -⟩ := h₂
  rw [createFile, Option.ite_none_right_eq_some] at h₂
  obtain ⟨htemp, ⟨⟩⟩ := h₂
  have htemporary : works 0 = true ∨ files .tempPath = none := by
    obtain ⟨hworks₀, -⟩ | ⟨-, rfl⟩ := h₁
    · exact .inl hworks₀
    · exact .inr htemp
  refine runOps_cons (.inl hpath) fun n₃ f₃ hn₃ h₃ => ?_
  obtain ⟨hworks₂, ⟨⟩⟩ | ⟨⟨⟩, -⟩ := h₃
  refine runOps_cons (.inl hpath) fun n₄ f₄ hn₄ h₄ => ?_
  obtain ⟨hworks₃, h₄⟩ | ⟨⟨⟩, -⟩ := h₄
  have hnew : f₄ .tempPath = some data ∧ f₄ .path = files .path := by
    obtain rfl := Option.some.inj h₄
    exact ⟨by simp, hpath⟩
  refine runOps_cons (.inl hnew.2) fun n₅ f₅ hn₅ h₅ => ?_
  obtain ⟨hworks₄, h₅⟩ | ⟨-, rfl⟩ := h₅
  · -- The archive is deleted, so that the new one has to take its place.
    obtain ⟨old, hold, rfl⟩ := Option.map_eq_some_iff.mp h₅
    have hrenamed : ¬ (limit = 5 ∨ works 5 = false) := fun hend => hnot
      ⟨by rw [← hnew.2, hold]; exact Option.some_ne_none _, htemporary,
        ⟨hworks₁, hworks₂, hworks₃⟩, ⟨hworks₄, by omega⟩, hend⟩
    rw [not_or, Bool.not_eq_false] at hrenamed
    obtain ⟨n, rfl⟩ : ∃ n, n₅ = n + 1 := Nat.exists_eq_succ_of_ne_zero (by omega)
    right
    simp [runOps, hrenamed.2, renameFile, hnew]
  · refine runOps_cons (.inl hnew.2) fun n₆ f₆ hn₆ h₆ => ?_
    obtain ⟨-, h₆⟩ | ⟨⟨⟩, -⟩ := h₆
    simp only [renameFile, hnew.1] at h₆
    split at h₆
    · cases h₆
      right
      simp_all [runOps]
    · cases h₆

/-- A save that is interrupted leaves no archive. -/
theorem Interrupted.path_eq_none (h : Interrupted works limit files) :
    runOps works limit 0 (commit false data) files .path = none := by
  obtain ⟨n, rfl⟩ := Nat.exists_eq_add_of_le' h.deleted.2
  obtain ⟨old, hold⟩ := Option.ne_none_iff_exists'.mp h.archive
  obtain ⟨hworks₁, hworks₂, hworks₃⟩ := h.written
  have hcut : n = 0 ∨ works 5 = false := h.cut.imp_left Nat.add_eq_right.mp
  -- The archive is deleted, whatever was at the temporary path.
  have hdeleted : ∀ f : Files, f .path = some old → f .tempPath = none →
      runOps works (n + 4) 1 (commit false data).tail f .path = none := by
    intro f hpath htemp
    simp only [commit, saveArchiveToFile, List.cons_append, List.nil_append, Bool.false_eq_true,
      if_false, List.tail_cons, runOps, hworks₁, hworks₂, hworks₃, h.deleted.1, if_true, createFile,
      htemp, openFile, writeFile, deleteFile, update_self, Option.map_some, hpath,
      update_of_ne, ne_eq, reduceCtorEq, not_false_eq_true]
    obtain rfl | hworks₅ := hcut
    · simp [runOps]
    · cases n <;> simp [runOps, hworks₅]
  cases hfirst : (if works 0 = true then deleteFile .tempPath files else none) with
  | none =>
    have hrun : runOps works (n + 5) 0 (commit false data) files =
        runOps works (n + 4) 1 (commit false data).tail files := by
      simp [commit, saveArchiveToFile, runOps, hfirst]
    rw [hrun]
    refine hdeleted files hold (h.temporary.elim (fun hworks₀ => ?_) id)
    rw [if_pos hworks₀] at hfirst
    exact Option.map_eq_none_iff.mp hfirst
  | some f =>
    have hrun : runOps works (n + 5) 0 (commit false data) files =
        runOps works (n + 4) 1 (commit false data).tail f := by
      simp [commit, saveArchiveToFile, runOps, hfirst]
    rw [Option.ite_none_right_eq_some] at hfirst
    obtain ⟨_, -, rfl⟩ := Option.map_eq_some_iff.mp hfirst.2
    rw [hrun]
    exact hdeleted _ hold rfl

/-- The next load after a save that is not destructive gives what the store was before or what was
saved, exactly if the save is not interrupted, or aborts before its first file operation, or one of
the two stores is empty. -/
theorem loadFile_saveFile_iff (hpos : 0 < keySize) (hkey : ∀ e ∈ entries, e.key.length = keySize)
    (hcount : entries.length < 2 ^ 32)
    (hsizes : ∀ e ∈ entries, e.key.length < 2 ^ 32 ∧ e.value.length < 2 ^ 32)
    (hbuffer : buffer.length = getArchiveSize keySize entries)
    (hcapacity : entries.length ≤ capacity) :
    (loadFile keySize capacity (saveFile works limit false buffer entries files) =
        loadFile keySize capacity files ∨
      loadFile keySize capacity (saveFile works limit false buffer entries files) =
        some (.ok entries)) ↔
    (Interrupted works limit files → (∀ e ∈ entries, 0 < e.value.length) →
      loadFile keySize capacity files = some (.ok []) ∨ entries = []) := by
  unfold saveFile
  cases hsave : save buffer entries with
  | none =>
    refine iff_of_true (.inl rfl) fun _ hvalue => ?_
    rw [save_eq hpos hkey hvalue hbuffer] at hsave
    cases hsave
  | some w =>
    have hvalue := value_pos_of_save hsave
    rw [save_eq hpos hkey hvalue hbuffer] at hsave
    obtain rfl := Option.some.inj hsave
    dsimp only
    by_cases hinterrupted : Interrupted works limit files
    · have hempty : loadFile keySize capacity
          (runOps works limit 0 (commit false (archiveBytes entries)) files) = some (.ok []) := by
        rw [loadFile, hinterrupted.path_eq_none]
      rw [hempty]
      constructor
      · rintro (hold | hnew) _ _
        · exact .inl hold.symm
        · exact .inr (Except.ok.inj (Option.some.inj hnew)).symm
      · intro h
        obtain hold | hnil := h hinterrupted hvalue
        · exact .inl hold.symm
        · exact .inr (by rw [hnil])
    · refine iff_of_true ?_ fun h => absurd h hinterrupted
      unfold loadFile
      obtain hold | hnew : OldOrNew files (archiveBytes entries) _ :=
        oldOrNew_commit hinterrupted
      · left
        rw [hold]
      · right
        rw [hnew]
        exact (load_archiveBytes hpos hkey hcapacity hvalue).mpr
          ⟨hcount, fun e he => (hsizes e he).1, hvalue, fun e he => (hsizes e he).2⟩

/-- An archive with one entry. -/
def oneArchive : Files
  | .path => some (archiveBytes [⟨[0], [7]⟩])
  | .tempPath => none

theorem loadFile_saveFile_oneEntry : getArchiveSize 1 [⟨[0], [8]⟩] = 26 ∧
    (loadFile 1 2 (saveFile (fun _ => true) 6 false (List.replicate 26 0) [⟨[0], [8]⟩] oneArchive) =
        loadFile 1 2 oneArchive ∨
      loadFile 1 2
          (saveFile (fun _ => true) 6 false (List.replicate 26 0) [⟨[0], [8]⟩] oneArchive) =
        some (.ok [⟨[0], [8]⟩])) := by
  refine ⟨rfl, (loadFile_saveFile_iff (by decide) (by simp) (by decide) (by simp) rfl
    (by decide)).mpr fun h => ?_⟩
  exact absurd h.cut (by decide)

/-- A save that ends after the deletion, or whose renaming fails, leaves an empty store. -/
theorem loadFile_saveFile_empty :
    loadFile 1 2 oneArchive = some (.ok [⟨[0], [7]⟩]) ∧
    (∃ files, saveFile (fun _ => true) 5 false (List.replicate 26 0) [⟨[0], [8]⟩] oneArchive =
        files ∧ loadFile 1 2 files = some (.ok [])) ∧
    ∃ files, saveFile (· ≠ 5) 6 false (List.replicate 26 0) [⟨[0], [8]⟩] oneArchive = files ∧
      loadFile 1 2 files = some (.ok []) :=
  ⟨rfl, ⟨_, rfl, rfl⟩, _, rfl, rfl⟩

end Atmosphere.Kvdb
