import ServeD.Lib.Archives
import ServeD.Utils.Archiver
import ServeD.Utils.Symlinks

/-! # Updating a backup

`updateByTimeStampDiff` of `SvdArchiver.scala`. The files of the source are copied into the archive
if they are newer than their copy there by more than a second, in the order of a parallel
collection; symlinks are written to the metadata file instead. -/

namespace ServeD.Utils.Backup

open ServeD.Lib.Texts ServeD.Lib.Patterns ServeD.Lib.FileTrees ServeD.Lib.Archives
    ServeD.Utils.Archiver

/-! ### The source -/

/-- What the disk has at a path, with the tree that a link leads to. -/
inductive Tree where
  | file (content : List UInt8) (lastModified : ℕ) (canRead : Bool)
  /-- a directory that cannot be listed -/
  | locked (lastModified : ℕ)
  | dir (lastModified : ℕ) (entries : List (Name × Tree))
  | link (destination : Text) (target : Tree)
  /-- a link that leads nowhere -/
  | dangling (destination : Text)

namespace Tree

def isSymlink : Tree → Bool
  | link _ _ | dangling _ => true
  | _ => false

/-- Where a symlink points. -/
def destination : Tree → Option Text
  | link destination _ | dangling destination => some destination
  | _ => none

def isDirectory : Tree → Bool
  | locked _ | dir _ _ => true
  | link _ target => target.isDirectory
  | _ => false

def lastModified : Tree → ℕ
  | file _ time _ | locked time | dir time _ => time
  | link _ target => target.lastModified
  | dangling _ => 0

/-- The entries of the directory that this is or leads to. -/
def entries : Tree → List (Name × Tree)
  | dir _ es => es
  | link _ target => target.entries
  | _ => []

/-- The entry with these names, where links are followed on the way. -/
def find : List Name → Tree → Option Tree
  | [], t => some t
  | n :: ns, t => (t.entries.find? fun e => e.1 = n).bind fun e => find ns e.2

mutual

/-- The tree as `listFiles` goes through it: a link is what it leads to,
and one that leads nowhere is no directory. -/
def seen : Tree → Node
  | file _ _ _ | dangling _ => .file
  | locked _ => .locked
  | dir _ es => .dir (seenEntries es)
  | link _ target => target.seen

def seenEntries : List (Name × Tree) → List (Name × Node)
  | [] => []
  | (n, t) :: es => (n, t.seen) :: seenEntries es

end

def isDangling : Tree → Bool
  | dangling _ => true
  | link _ target => target.isDangling
  | _ => false

/-- The root of the source: links there that lead nowhere are neither files nor directories. -/
def root : Tree → Node
  | dir _ es => .dir (seenEntries (es.filter fun e => !e.2.isDangling))
  | link _ target => target.root
  | t => t.seen

end Tree

/-- The source at the path has this below it. -/
def sourceFile (fileOrDirectoryPath : Text) (source : Tree) (s : Text) : Option Tree :=
  let r := (normalize s).drop (normalize fileOrDirectoryPath).length
  if normalize fileOrDirectoryPath <+: normalize s ∧ (r.head? = some '/' ∨ r = [])
    then source.find (namesOf r)
  else none

/-! ### The archive -/

abbrev Files := Archive Name (List UInt8)

inductive Archived where
  | missing
  /-- `listFiles` is `null` -/
  | unlistable
  | files (a : Files)

inductive Restored where
  | file (content : List UInt8)
  | dir
  | link (destination : Text)
  deriving DecidableEq

/-- What is below a directory that an archive is copied to. -/
abbrev Unpacked := List Name → Option Restored

inductive CopyFailure where
  | fileNotFoundException
  | ioException

/-- The archive driver. -/
structure TrueZip where
  /-- the time kept for a file that was modified at some time -/
  stored : ℕ → ℕ
  /-- `lastModified` of a directory -/
  dirTime : List Name → ℕ
  /-- `TFile.cp_p(srcFile, archFile)` -/
  cp_p : Option Tree → List Name → Files → Except CopyFailure Files
  /-- `archFile.mkdirs` -/
  mkdirs : List Name → Files → Files
  /-- `from.archiveCopyAllTo(to, ArchiveDetector.NULL)` -/
  archiveCopyAllTo : Files → Unpacked

/-- `lastModified` of what is in the archive, zero where nothing is. -/
def TrueZip.lastModified (Z : TrueZip) (a : Files) (ns : List Name) : ℕ :=
  match a ns with
  | some (.file _ time) => time
  | some .dir => Z.dirTime ns
  | none => 0

/-- The entries of an archive as files and directories of the disk. -/
def unpacked (a : Files) : Unpacked := fun ns =>
  (a ns).map fun e => match e with
    | .file content _ => .file content
    | .dir => .dir

/-- The driver does what is documented: a file is copied with its time, and directories are made for
it; what cannot be read as a file is not found; a directory is made with those above it; and
everything is copied out of an archive. -/
structure TrueZip.Documented (Z : TrueZip) : Prop where
  copies : ∀ (content : List UInt8) (time : ℕ) (ns : List Name) (a : Files), a ns ≠ some .dir →
    a.clear ns = true →
    Z.cp_p (some (.file content time true)) ns a = .ok (a.write ns content (Z.stored time))
  unreadable : ∀ (content : List UInt8) (time : ℕ) (ns : List Name) (a : Files),
    Z.cp_p (some (.file content time false)) ns a = .error .fileNotFoundException
  directory : ∀ (c : Tree) (ns : List Name) (a : Files), c.isDirectory = true →
    Z.cp_p (some c) ns a = .error .fileNotFoundException
  makes : ∀ (ns : List Name) (a : Files), a.clear ns = true → a.isFile ns = false →
    Z.mkdirs ns a = a.fill ns
  copiesAll : ∀ a : Files, Z.archiveCopyAllTo a = unpacked a

/-! ### The update -/

inductive Failure where
  | archiver (failure : Archiver.Failure)
  | ioException

/-- What is done for one file, with its time and that of its copy compared. -/
def updateEntry (Z : TrueZip) (srcFile : Option Tree) (archFile : List Name) (a : Files) :
    Except Failure Files :=
  let difference : ℤ := (srcFile.map Tree.lastModified).getD 0 - Z.lastModified a archFile
  if (srcFile.map Tree.isSymlink).getD false then .ok a
  else if difference > 1000 then
    match Z.cp_p srcFile archFile a with
    | .ok a => .ok a
    | .error .fileNotFoundException =>
      if (srcFile.map Tree.isDirectory).getD false then .ok (Z.mkdirs archFile a) else .ok a
    | .error .ioException => .error .ioException
  else .ok a

/-- The loop over the relative paths; one without a slash is that of a file beside the archive. -/
def updateFile (Z : TrueZip) (srcBase : Text) (source : Tree) (a : Files) (src : Text) :
    Except Failure Files :=
  if src.head? = some '/' then updateEntry Z (sourceFile srcBase source (srcBase ++ src))
    (namesOf src) a else .ok a

/-- The bytes are those of some writers, each in its order. -/
inductive Merged {α : Type} : List (List α) → List α → Prop where
  | nil : (∀ w ∈ ws, w = []) → Merged ws []
  | cons : Merged (before ++ w :: after) bytes → Merged (before ++ (b :: w) :: after) (b :: bytes)

/-- How the threads of a parallel collection take turns. -/
structure Threads extends Schedule where
  /-- the bytes that are written by `writeBytes`, which is not synchronized -/
  merge : List (List UInt8) → List UInt8
  merged : ∀ ws, Merged ws (merge ws)

/-- `updateByTimeStampDiff`: the archive afterwards. The temporary file has bytes from
a run that was broken off. -/
def updateByTimeStampDiff (R : Regex) (P : Threads) (Z : TrueZip) (now : ℕ)
    (fileOrDirectoryPath : Text) (source : Option Tree) (virtualRootFile : Archived)
    (symlinkArchFile : List UInt8) : Except Failure Archived :=
  match (split fileOrDirectoryPath).getLast? with
  | none => .error (.archiver .noSuchElementException)
  | some trimmedFileName =>
    match source.bind fun t => (TFile.listFiles ⟨normalize fileOrDirectoryPath, t.root⟩).map
      fun l => (t, l) with
    | none =>
      if source.isSome then .error (.archiver (.svdArchiveACLException
        ("ACL access failure to file: ".toList ++ fileOrDirectoryPath ++
          ". Operation is aborted.".toList)))
      else .error (.archiver (.svdArchiveNonExistantException
        ("Given source directory doesn't exists: ".toList ++ fileOrDirectoryPath ++
          ". Operation is aborted.".toList)))
    | some (sourceFilesCore, sourceFiles) =>
      match gatherAllDirsRecursively (sourceFiles.filter TFile.isDirectory) [] with
      | .error failure => .error (.archiver failure)
      | .ok gatheredDirList =>
        let update (a : Files) : Except Failure Archived :=
          match relativePaths R fileOrDirectoryPath
            (gatheredDirList.flatMap TFile.children ++ sourceFiles.filter TFile.isFile) with
          | .error failure => .error (.archiver failure)
          | .ok allSrc => do
            let a ← (P.order allSrc).foldlM (updateFile Z fileOrDirectoryPath sourceFilesCore) a
            let links := allSrc.filterMap fun src =>
              ((sourceFile fileOrDirectoryPath sourceFilesCore (fileOrDirectoryPath ++ src)).bind
                Tree.destination).map
                fun d => (src, d)
            let metadata := symlinkArchFile ++ P.merge (links.map Symlinks.writeLink)
            match Z.cp_p (some (.file metadata now true))
              (namesOf (symlinkMetadataFile trimmedFileName)) a with
            | .ok a => .ok (.files a)
            | .error _ => .error .ioException
        match virtualRootFile with
        | .missing => update Archive.empty
        | .unlistable => .ok .unlistable
        | .files a => update a

/-! ### Entries of the source -/

section Tree

variable {t c : Tree} {n : Name} {ns ms : List Name}

theorem find_cons : t.find (n :: ns) = (t.entries.find? fun e => e.1 = n).bind fun e =>
    e.2.find ns := rfl

theorem find_append : t.find (ns ++ ms) = (t.find ns).bind (Tree.find ms) := by
  induction ns generalizing t with
  | nil => rfl
  | cons n ns ih =>
    simp only [List.cons_append, find_cons, ih, Option.bind_assoc]

/-- A file has nothing below it. -/
theorem eq_of_prefix_file {content : List UInt8} {time : ℕ} {canRead : Bool}
    (h : t.find ns = some (.file content time canRead)) (hms : t.find ms ≠ none)
    (hpre : ns <+: ms) : ns = ms := by
  obtain ⟨ks, rfl⟩ := hpre
  rw [find_append, h] at hms
  rcases ks with _ | ⟨k, ks⟩
  · rw [List.append_nil]
  · exact absurd rfl hms

theorem mem_seenEntries {es : List (Name × Tree)} (h : (n, c) ∈ es) :
    (n, c.seen) ∈ Tree.seenEntries es := by
  induction es with
  | nil => cases h
  | cons e es ih =>
    obtain ⟨m, d⟩ := e
    rw [Tree.seenEntries]
    rcases List.mem_cons.mp h with heq | h
    · obtain ⟨rfl, rfl⟩ := Prod.mk.inj heq
      exact List.mem_cons_self
    · exact List.mem_cons_of_mem _ (ih h)

theorem seen_eq (h : t.entries ≠ []) : t.seen = .dir (Tree.seenEntries t.entries) := by
  fun_induction Tree.entries t with
  | case1 time es => rfl
  | case2 destination target ih => exact ih h
  | case3 t => exact absurd rfl h

theorem root_eq (h : t.entries ≠ []) :
    t.root = .dir (Tree.seenEntries (t.entries.filter fun e => !e.2.isDangling)) := by
  fun_induction Tree.entries t with
  | case1 time es => rfl
  | case2 destination target ih => exact ih h
  | case3 t => exact absurd rfl h

theorem not_isDangling_of_entries (h : t.entries ≠ []) : t.isDangling = false := by
  fun_induction Tree.entries t with
  | case1 time es => rfl
  | case2 destination target ih => exact ih h
  | case3 t => exact absurd rfl h

theorem exists_entry (h : t.find (n :: ns) = some c) :
    ∃ d, (n, d) ∈ t.entries ∧ d.find ns = some c := by
  rw [find_cons] at h
  obtain ⟨⟨m, d⟩, he, hd⟩ := Option.bind_eq_some_iff.mp h
  obtain rfl : m = n := by simpa using List.find?_some he
  exact ⟨d, List.mem_of_find?_eq_some he, hd⟩

theorem has_seen (h : t.find ns = some c) : Has t.seen ns c.seen := by
  induction ns generalizing t with
  | nil =>
    obtain rfl := Option.some.inj h
    exact .here
  | cons n ns ih =>
    obtain ⟨d, hd, hc⟩ := exists_entry h
    rw [seen_eq (List.ne_nil_of_mem hd)]
    exact .enter (mem_seenEntries hd) (ih hc)

/-- What is found is listed, except for links of the root that lead nowhere. -/
theorem has_root (h : t.find (n :: ns) = some c) (hc : c.isDangling = false) :
    Has t.root (n :: ns) c.seen := by
  obtain ⟨d, hd, hc'⟩ := exists_entry h
  have hdangling : d.isDangling = false := by
    rcases ns with _ | ⟨m, ns⟩
    · obtain rfl := Option.some.inj hc'
      exact hc
    · obtain ⟨e, he, -⟩ := exists_entry hc'
      exact not_isDangling_of_entries (List.ne_nil_of_mem he)
  rw [root_eq (List.ne_nil_of_mem hd)]
  refine .enter (mem_seenEntries (List.mem_filter.mpr ⟨hd, ?_⟩)) (has_seen hc')
  rw [hdangling]
  rfl

/-- Every file below the root is listed. -/
theorem listed_of_find {content : List UInt8} {time : ℕ} {canRead : Bool} (hne : ns ≠ [])
    (h : t.find ns = some (.file content time canRead)) : Listed t.root ns := by
  obtain ⟨n, ns, rfl⟩ := List.exists_cons_of_ne_nil hne
  have hhas : Has t.root (n :: ns) .file := has_root h rfl
  rcases ns with _ | ⟨m, ns⟩
  · exact .inl ⟨rfl, hhas⟩
  · exact .inr ⟨by simp, .file, hhas⟩

end Tree

/-! ### One file -/

/-- The file in the archive after an update, for what the source and the archive have there. -/
def copied (Z : TrueZip) (source : Option Tree) (old : Option (List UInt8 × ℕ)) :
    Option (List UInt8 × ℕ) :=
  match source with
  | some (.file content time true) =>
    if (old.map Prod.snd).getD 0 + 1000 < time then some (content, Z.stored time) else old
  | _ => old

/-- The files of the source that can be copied. -/
def IsFile (t : Tree) (ns : List Name) : Prop :=
  ∃ content time, t.find ns = some (.file content time true)

def IsDir (t : Tree) (ns : List Name) : Prop := ∃ c, t.find ns = some c ∧ c.isSymlink = false ∧
    c.isDirectory = true

/-- There are symlinks at and below a path and nothing else. -/
def OnlyLinks (t : Tree) (ns : List Name) : Prop :=
  ∀ ms c, ns <+: ms → t.find ms = some c → c.isSymlink = true

/-- The files that are written for some versions of the source. -/
def Copied (path : Text) (ts : List Tree) (ns : List Name) : Prop :=
  IsMetadata path ns ∨ ∃ t ∈ ts, IsFile t ns

/-- The directories that may be made for them. -/
def Made (ts : List Tree) (ns : List Name) : Prop := ∃ t ∈ ts, IsDir t ns

/-- No directory of the archive is in the place of such a file, and no file above one of them or in
the place of such a directory. -/
def Compatible (path : Text) (ts : List Tree) : Files → Prop := Open (Copied path ts) (Made ts)

/-- The source can be archived: each of its directories can be listed, and it has no file of the
name of the metadata file. -/
structure Archivable (path : Text) (t : Tree) : Prop where
  listed : (TFile.listFiles ⟨normalize path, t.root⟩).isSome
  readable : Readable t.root
  free : ∀ ns, IsMetadata path ns → t.find ns = none

/-- Versions of the source where no file becomes a directory or goes for one,
or the other way round. -/
structure Consistent (path : Text) (ts : List Tree) : Prop where
  archivable : ∀ t ∈ ts, Archivable path t
  kinds : ∀ t ∈ ts, ∀ t' ∈ ts, ∀ ns ms, IsFile t ns → IsFile t' ms ∨ IsDir t' ms → ns <+: ms →
    ns = ms ∧ ¬ IsDir t' ms

section File

variable {Z : TrueZip} {path : Text} {t : Tree} {ts : List Tree} {ns ms : List Name} {a : Files}

theorem copied_copied (source : Option Tree) (old : Option (List UInt8 × ℕ)) :
    copied Z source (copied Z source old) = copied Z source old := by
  rcases source with _ | ⟨content, time, _ | _⟩ | _ | _ | _ | _
  · rfl
  · rfl
  · by_cases h : (old.map Prod.snd).getD 0 + 1000 < time
    · have hnew : copied Z (some (.file content time true)) old = some (content, Z.stored time) :=
        if_pos h
      rw [hnew]
      exact ite_self _
    · have hold : copied Z (some (.file content time true)) old = old := if_neg h
      rw [hold, hold]
  · rfl
  · rfl
  · rfl
  · rfl

theorem sourceFile_clean (h : Clean path) (t : Tree) (ns : List Name) :
    sourceFile path t (path ++ pathText ns) = t.find ns := by
  have hlast : (path ++ pathText ns).getLast? ≠ some '/' := by
    rw [List.getLast?_append]
    rcases hns : (pathText ns).getLast? with _ | c
    · exact h.2
    · exact fun heq => getLast?_pathText ns (hns.trans heq)
  have hnormal : normalize (path ++ pathText ns) = path ++ pathText ns :=
    normalize_of_clean (not_doubled_append h.1 (not_doubled_pathText ns) h.2) hlast
  have hhead : (pathText ns).head? = some '/' ∨ pathText ns = [] := by
    rcases ns with _ | ⟨n, ns⟩
    · exact .inr rfl
    · exact .inl rfl
  unfold sourceFile
  simp only [hnormal, normalize_of_clean h.1 h.2, List.drop_left]
  rw [if_pos ⟨List.prefix_append path _, hhead⟩, namesOf_pathText]

/-- The metadata file is in the root. -/
theorem exists_metadata (hclean : Clean path) :
    ∃ name k, (split path).getLast? = some name ∧ symlinkMetadataFile name = pathText [k] ∧
      ∀ ns, IsMetadata path ns ↔ ns = [k] := by
  obtain ⟨name, hlast, hslash, -⟩ := getLast?_split hclean.hasName
  have hnoSlash : '/' ∉ '.' :: name ++ "-archive-metadata.symlinks".toList := by
    have hext : '/' ∉ "-archive-metadata.symlinks".toList := by decide
    simp only [List.cons_append, List.mem_cons, List.mem_append, not_or]
    exact ⟨by decide, hslash, hext⟩
  have hk : symlinkMetadataFile name =
      pathText [⟨'.' :: name ++ "-archive-metadata.symlinks".toList, by simp, hnoSlash⟩] := by
    have hslashDot : "/.".toList = ['/', '.'] := by decide
    unfold symlinkMetadataFile
    rw [hslashDot, pathText_cons]
    simp [pathText]
  refine ⟨name, _, hlast, hk, fun ns => ?_⟩
  rw [isMetadata_iff hlast, hk]
  exact ⟨pathText_inj, fun h => h ▸ rfl⟩

theorem Archivable.not_isFile_nil (h : Archivable path t) : ¬ IsFile t [] := by
  rintro ⟨content, time, hfile⟩
  obtain rfl := Option.some.inj hfile
  cases h.listed

theorem find_ne_none (h : IsFile t ms ∨ IsDir t ms) : t.find ms ≠ none := by
  rcases h with ⟨content, time, h⟩ | ⟨c, h, -⟩
  · exact h ▸ Option.some_ne_none _
  · exact h ▸ Option.some_ne_none _

/-- Nothing is found below the path of the metadata file. -/
theorem not_metadata_above (h : Archivable path t) (hns : IsMetadata path ns)
    (hms : IsFile t ms ∨ IsDir t ms) :
    ¬ ns <+: ms := by
  rintro ⟨ks, rfl⟩
  refine find_ne_none hms ?_
  rw [find_append, h.free ns hns]
  rfl

theorem not_isDir_of_isFile (h : IsFile t ns) : ¬ IsDir t ns := by
  rintro ⟨c, hc, -, hdir⟩
  obtain ⟨content, time, h⟩ := h
  obtain rfl := Option.some.inj (h.symm.trans hc)
  cases hdir

theorem consistent_one (h : Archivable path t) : Consistent path [t] where
  archivable t' ht' := List.mem_singleton.mp ht' ▸ h
  kinds t₁ ht₁ t₂ ht₂ ns ms hns hms hpre := by
    obtain rfl := List.mem_singleton.mp ht₁
    obtain rfl := List.mem_singleton.mp ht₂
    obtain ⟨content, time, hfind⟩ := id hns
    obtain rfl := eq_of_prefix_file hfind (find_ne_none hms) hpre
    exact ⟨rfl, not_isDir_of_isFile hns⟩

theorem Consistent.layout (h : Consistent path ts) (hclean : Clean path) :
    Layout (Copied path ts) (Made ts) where
  above ns ms hns hms hpre := by
    obtain ⟨name, k, -, -, hmeta⟩ := exists_metadata hclean
    have hfound : (∃ t ∈ ts, IsFile t ms ∨ IsDir t ms) ∨ IsMetadata path ms := by
      rcases hms with (hms | ⟨t, ht, hms⟩) | ⟨t, ht, hms⟩
      · exact .inr hms
      · exact .inl ⟨t, ht, .inl hms⟩
      · exact .inl ⟨t, ht, .inr hms⟩
    rcases hns with hns | ⟨t, ht, hns⟩
    · rcases hfound with ⟨t', ht', hms⟩ | hms
      · exact absurd hpre (not_metadata_above (h.archivable t' ht') hns hms)
      · rw [(hmeta ns).mp hns, (hmeta ms).mp hms]
    · rcases hfound with ⟨t', ht', hms⟩ | hms
      · exact (h.kinds t ht t' ht' ns ms hns hms hpre).1
      · obtain rfl := (hmeta ms).mp hms
        rcases ns with _ | ⟨n, ns⟩
        · exact absurd hns (h.archivable t ht).not_isFile_nil
        · exact hpre.eq_of_length_le (by simp)
  disjoint ns hns hdir := by
    obtain ⟨t', ht', hdir⟩ := hdir
    rcases hns with hns | ⟨t, ht, hns⟩
    · exact not_metadata_above (h.archivable t' ht') hns (.inr hdir) List.prefix_rfl
    · exact (h.kinds t ht t' ht' ns ns hns (.inr hdir) List.prefix_rfl).2 hdir

theorem lastModified_eq (h : a ns ≠ some .dir) :
    Z.lastModified a ns = ((a.fileAt ns).map Prod.snd).getD 0 := by
  unfold TrueZip.lastModified Archive.fileAt
  rcases hns : a ns with _ | ⟨content, time⟩ | _
  · rfl
  · rfl
  · exact absurd hns h

/-- The file at `ms` stays as it is, or is copied; nothing else happens but at and
above what is no symlink. -/
structure Updates (Z : TrueZip) (c : Option Tree) (ms : List Name) (a a' : Files) : Prop where
  fileAt : ∀ ns, a'.fileAt ns = if ns = ms then copied Z c (a.fileAt ns) else a.fileAt ns
  frame : ∀ ns, (∀ d, c = some d → d.isSymlink = false → ¬ ns <+: ms) → a' ns = a ns
  rooted : Rooted a → Rooted a'

theorem updates_self {c : Option Tree} (h : copied Z c (a.fileAt ms) = a.fileAt ms) :
    Updates Z c ms a a where
  fileAt ns := by
    split_ifs with hns
    · rw [hns, h]
    · rfl
  frame _ _ := rfl
  rooted h := h

theorem cp_p_file (hZ : Z.Documented) (hopen : Compatible path ts a) (hms : Copied path ts ms)
    {content : List UInt8} {time : ℕ} :
    Z.cp_p (some (.file content time true)) ms a = .ok (a.write ms content (Z.stored time)) :=
  hZ.copies content time ms a (hopen.file ms hms) (hopen.clear (.inl hms))

section Entry

variable {c : Tree}

theorem updateEntry_some : updateEntry Z (some c) ms a =
    if c.isSymlink then .ok a
    else if (c.lastModified : ℤ) - Z.lastModified a ms > 1000 then
      match Z.cp_p (some c) ms a with
      | .ok a => .ok a
      | .error .fileNotFoundException => if c.isDirectory then .ok (Z.mkdirs ms a) else .ok a
      | .error .ioException => .error .ioException
    else .ok a := rfl

theorem updateEntry_old (c : Tree) (h : ¬ (c.lastModified : ℤ) - Z.lastModified a ms > 1000) :
    updateEntry Z (some c) ms a = .ok a := by
  rw [updateEntry_some, if_neg h, ite_self]

theorem updateEntry_new (c : Tree) (hlink : c.isSymlink = false)
    (h : (c.lastModified : ℤ) - Z.lastModified a ms > 1000) :
    updateEntry Z (some c) ms a = match Z.cp_p (some c) ms a with
      | .ok a => .ok a
      | .error .fileNotFoundException => if c.isDirectory then .ok (Z.mkdirs ms a) else .ok a
      | .error .ioException => .error .ioException := by
  rw [updateEntry_some, if_neg (Bool.eq_false_iff.mp hlink), if_pos h]

/-- A directory is made if it is not there. -/
theorem updateEntry_dir (hZ : Z.Documented) (hlayout : Layout (Copied path ts) (Made ts))
    (hopen : Compatible path ts a) (ht : t ∈ ts) (hc : t.find ms = some c)
    (hlink : c.isSymlink = false) (hdir : c.isDirectory = true)
    (hcopied : ∀ old, copied Z (some c) old = old) :
    ∃ a', updateEntry Z (some c) ms a = .ok a' ∧ Compatible path ts a' ∧
      Updates Z (some c) ms a a' := by
  by_cases hnew : (c.lastModified : ℤ) - Z.lastModified a ms > 1000
  · have hmade : Made ts ms := ⟨t, ht, c, hc, hlink, hdir⟩
    have hclear := hopen.clear (.inr hmade)
    have hfile := hopen.dir ms hmade
    refine ⟨a.fill ms, ?_, hopen.fill_dir hlayout hmade, fun ns => ?_, fun ns hns => ?_,
      fun hrooted => ?_⟩
    · rw [updateEntry_new c hlink hnew, hZ.directory c ms a hdir, ← hZ.makes ms a hclear hfile]
      exact if_pos hdir
    · rw [fileAt_fill, hcopied, ite_self]
    · exact fill_of_outside (hns c rfl hlink)
    · exact hrooted.fill (not_isFile_of_clear hclear hfile)
  · exact ⟨a, updateEntry_old c hnew, hopen, updates_self (hcopied _)⟩

end Entry

/-- One path. -/
theorem updateEntry_spec (hZ : Z.Documented) (hlayout : Layout (Copied path ts) (Made ts))
    (ht : t ∈ ts) (hopen : Compatible path ts a) (hms : ms ≠ []) :
    ∃ a', updateEntry Z (t.find ms) ms a = .ok a' ∧ Compatible path ts a' ∧
      Updates Z (t.find ms) ms a a' := by
  rcases hfind : t.find ms with _ | c
  · have hle : ¬ ((0 : ℕ) : ℤ) - (Z.lastModified a ms : ℤ) > 1000 := by omega
    exact ⟨a, if_neg hle, hopen, updates_self rfl⟩
  · cases c with
    | file content time canRead =>
      by_cases hnew : (time : ℤ) - Z.lastModified a ms > 1000
      · rw [updateEntry_new (.file content time canRead) rfl hnew]
        cases canRead with
        | false =>
          rw [hZ.unreadable]
          exact ⟨a, rfl, hopen, updates_self rfl⟩
        | true =>
          have hfile : Copied path ts ms := .inr ⟨t, ht, content, time, hfind⟩
          have hdir := hopen.file ms hfile
          refine ⟨_, by rw [cp_p_file hZ hopen hfile], hopen.write hlayout hfile, fun ns => ?_,
            fun ns hns => ?_,
            fun h => h.write hms (hopen.clear (.inl hfile)) hdir⟩
          · rw [fileAt_write]
            split_ifs with hns
            · have hlt : ((a.fileAt ns).map Prod.snd).getD 0 + 1000 < time := by
                rw [lastModified_eq hdir] at hnew
                rw [hns]
                omega
              exact (if_pos hlt).symm
            · rfl
          · exact write_of_outside (hns _ rfl rfl)
      · refine ⟨a, updateEntry_old (.file content time canRead) hnew, hopen, updates_self ?_⟩
        cases canRead with
        | false => rfl
        | true =>
          have hdir := hopen.file ms (.inr ⟨t, ht, content, time, hfind⟩)
          rw [lastModified_eq hdir] at hnew
          exact if_neg (by omega)
    | locked time => exact updateEntry_dir hZ hlayout hopen ht hfind rfl rfl fun _ => rfl
    | dir time es => exact updateEntry_dir hZ hlayout hopen ht hfind rfl rfl fun _ => rfl
    | link destination target => exact ⟨a, rfl, hopen, updates_self rfl⟩
    | dangling destination => exact ⟨a, rfl, hopen, updates_self rfl⟩

theorem updateFile_clean (hclean : Clean path) (hms : ms ≠ []) :
    updateFile Z path t a (pathText ms) = updateEntry Z (t.find ms) ms a := by
  have hhead : (pathText ms).head? = some '/' := by
    obtain ⟨n, ns, rfl⟩ := List.exists_cons_of_ne_nil hms
    rfl
  unfold updateFile
  rw [if_pos hhead, sourceFile_clean hclean, namesOf_pathText]

/-- The loop, in any order: every path that it meets is updated. -/
theorem foldlM_updateFile (hZ : Z.Documented) (hclean : Clean path)
    (hlayout : Layout (Copied path ts) (Made ts)) (ht : t ∈ ts) (srcs : List Text)
    (hsrcs : ∀ src ∈ srcs, ∃ ms, ms ≠ [] ∧ pathText ms = src) (hopen : Compatible path ts a) :
    ∃ a', srcs.foldlM (updateFile Z path t) a = .ok a' ∧ Compatible path ts a' ∧
      (∀ ns, a'.fileAt ns = if pathText ns ∈ srcs then copied Z (t.find ns) (a.fileAt ns)
        else a.fileAt ns) ∧
      (∀ ns, OnlyLinks t ns → a' ns = a ns) ∧ (Rooted a → Rooted a') := by
  induction srcs generalizing a with
  | nil => exact ⟨a, rfl, hopen, fun ns => rfl, fun ns _ => rfl, id⟩
  | cons src srcs ih =>
    obtain ⟨ms, hms, rfl⟩ := hsrcs src List.mem_cons_self
    obtain ⟨b, hb, hopenb, hfiles, hframe, hrooted⟩ := updateEntry_spec hZ hlayout ht hopen hms
    obtain ⟨a', ha', hopen', hrest, hframe', hrooted'⟩ :=
      ih (fun s hs => hsrcs s (List.mem_cons_of_mem _ hs)) hopenb
    refine ⟨a', ?_, hopen', fun ns => ?_, fun ns hns => ?_, fun h => hrooted' (hrooted h)⟩
    · rw [List.foldlM_cons, updateFile_clean hclean hms, hb]
      exact ha'
    · rw [hrest, hfiles]
      by_cases hns : ns = ms
      · -- a path may be met twice
        rw [if_pos hns, hns, if_pos List.mem_cons_self, copied_copied, ite_self]
      · have hmem : pathText ns ∈ pathText ms :: srcs ↔ pathText ns ∈ srcs := by
          rw [List.mem_cons]
          exact or_iff_right fun h => hns (pathText_inj h)
        simp only [if_neg hns, hmem]
    · rw [hframe' ns hns]
      refine hframe ns fun d hd hlink hpre => ?_
      rw [hns ms d hpre hd] at hlink
      cases hlink

end File

/-! ### The update -/

section Update

variable {path : Text} {t : Tree} {ts : List Tree} {a : Files}

/-- What an update of an archive does. -/
structure Updated (P : Threads) (Z : TrueZip) (now : ℕ) (path : Text) (t : Tree)
    (leftover : List UInt8) (a a' : Files) : Prop where
  files : ∀ ns, ¬ IsMetadata path ns → a'.fileAt ns = copied Z (t.find ns) (a.fileAt ns)
  metadata : ∃ links : List Symlinks.Link, (∀ ns, IsMetadata path ns →
      a'.fileAt ns = some (leftover ++ P.merge (links.map Symlinks.writeLink), Z.stored now)) ∧
    ∀ src d, (src, d) ∈ links ↔ ∃ ns, Listed t.root ns ∧ pathText ns = src ∧
      (t.find ns).bind Tree.destination = some d
  frame : ∀ ns, OnlyLinks t ns → (∀ ms, IsMetadata path ms → ¬ ns <+: ms) → a' ns = a ns
  rooted : Rooted a → Rooted a'

/-- **An update in any order**: each file of the source that can be read is in the archive
afterwards if it is newer than its copy there by more than a second, and all other files of the
archive stay. -/
theorem updateByTimeStampDiff_spec (R : Regex) (P : Threads) {Z : TrueZip}
    (hZ : Z.Documented) (now : ℕ) (leftover : List UInt8) (hsimple : Simple path)
    (hclean : Clean path) (hts : Consistent path ts) (ht : t ∈ ts) (hopen : Compatible path ts a) :
    ∃ a', updateByTimeStampDiff R P Z now path (some t) (.files a) leftover = .ok (.files a') ∧
      Compatible path ts a' ∧ Updated P Z now path t leftover a a' := by
  have harchivable := hts.archivable t ht
  obtain ⟨name, k, hlast, hk, hmeta⟩ := exists_metadata hclean
  obtain ⟨sourceFiles, hlist⟩ := Option.isSome_iff_exists.mp harchivable.listed
  obtain ⟨dirs, hdirs, hmem⟩ := gather_readable hlist harchivable.readable
  obtain ⟨allSrc, hallSrc, hcuts⟩ :=
    (relativePaths_listed R path hlist hmem).resolve_right (fun h =>
      h.1 (accepts_simple R hsimple _)) |>.2
  have hmemSrc : ∀ src, src ∈ allSrc ↔ ∃ ns, Listed t.root ns ∧ pathText ns = src := by
    intro src
    rw [hcuts, cuts_simple R hsimple]
    simp only [cutFirst_clean hclean]
  have hlayout := hts.layout hclean
  -- the loop over the paths
  obtain ⟨b, hb, hopenb, hfiles, hframe, hrooted⟩ :=
    foldlM_updateFile hZ hclean hlayout ht (P.order allSrc)
    (fun src hsrc => by
      obtain ⟨ns, hns, rfl⟩ := (hmemSrc src).mp ((P.perm allSrc).mem_iff.mp hsrc)
      exact ⟨ns, ne_nil_of_listed hns, rfl⟩) hopen
  obtain ⟨links, hlinks⟩ : ∃ l, l = allSrc.filterMap fun src =>
    ((sourceFile path t (path ++ src)).bind Tree.destination).map fun d => (src, d) := ⟨_, rfl⟩
  have hmetaK : Copied path ts [k] := .inl ((hmeta [k]).mpr rfl)
  -- the metadata file
  have hcp : Z.cp_p (some (.file (leftover ++ P.merge (links.map Symlinks.writeLink)) now true))
    [k] b =
      .ok (b.write [k] (leftover ++ P.merge (links.map Symlinks.writeLink)) (Z.stored now)) :=
    cp_p_file hZ hopenb hmetaK
  refine ⟨b.write [k] (leftover ++ P.merge (links.map Symlinks.writeLink)) (Z.stored now), ?_,
    hopenb.write hlayout hmetaK, fun ns hns => ?_, ?_, fun ns hns hpre => ?_, fun h => ?_⟩
  · unfold updateByTimeStampDiff
    rw [hlast]
    simp only [Option.bind_some, hlist, Option.map_some, hdirs]
    simp only [hallSrc, hb, ← hlinks, hk, namesOf_pathText]
    show (match Z.cp_p _ [k] b with
      | .ok a => Except.ok (Archived.files a)
      | .error _ => .error Failure.ioException) = _
    rw [hcp]
  · have hne : ns ≠ [k] := fun h => hns ((hmeta ns).mpr h)
    rw [fileAt_write, if_neg hne, hfiles]
    split_ifs with hsrc
    · rfl
    · rcases hfind : t.find ns with _ | ⟨content, time, _ | _⟩ | _ | _ | _ | _
      · rfl
      · rfl
      · have hns' : ns ≠ [] := by
          rintro rfl
          exact harchivable.not_isFile_nil ⟨content, time, hfind⟩
        rw [(P.perm allSrc).mem_iff, hmemSrc] at hsrc
        exact absurd ⟨ns, listed_of_find hns' hfind, rfl⟩ hsrc
      · rfl
      · rfl
      · rfl
      · rfl
  · refine ⟨links, fun ns hns => ?_, fun src d => ?_⟩
    · rw [fileAt_write, if_pos ((hmeta ns).mp hns)]
    · rw [hlinks, List.mem_filterMap]
      constructor
      · rintro ⟨src', hsrc', h⟩
        obtain ⟨ns, hns, rfl⟩ := (hmemSrc src').mp hsrc'
        rw [sourceFile_clean hclean] at h
        obtain ⟨d', hd', heq⟩ := Option.map_eq_some_iff.mp h
        obtain ⟨rfl, rfl⟩ := Prod.mk.inj heq
        exact ⟨ns, hns, rfl, hd'⟩
      · rintro ⟨ns, hns, rfl, hd⟩
        refine ⟨pathText ns, (hmemSrc _).mpr ⟨ns, hns, rfl⟩, ?_⟩
        rw [sourceFile_clean hclean, hd]
        rfl
  · rw [write_of_outside (hpre [k] ((hmeta [k]).mpr rfl)), hframe ns hns]
  · exact (hrooted h).write (List.cons_ne_nil k []) (hopenb.clear (.inl hmetaK))
      (hopenb.file [k] hmetaK)

end Update

/-! ### A directory with a file -/

theorem Merged.cons' {α : Type} {w bytes : List α} {after : List (List α)} {b : α}
    (before : List (List α)) (h : Merged (before ++ w :: after) bytes) :
    Merged (before ++ (b :: w) :: after) (b :: bytes) := .cons h

theorem Merged.append {α : Type} {ws : List (List α)} {bytes : List α} (w : List α)
    (h : Merged ws bytes) :
    Merged (w :: ws) (w ++ bytes) := by
  induction w with
  | nil =>
    rw [List.nil_append]
    induction h with
    | nil hws => exact .nil fun w hw => (List.mem_cons.mp hw).elim id (hws w)
    | @cons before w after bytes b h ih => exact ih.cons' ([] :: before)
  | cons b w ih => exact ih.cons' []

/-- Each thread writes its line at once. -/
def inTurn : Threads where
  toSchedule := inOrder
  merge := List.flatten
  merged ws := by
    induction ws with
    | nil => exact .nil (by simp)
    | cons w ws ih => exact ih.append w

/-- Times are kept with the precision of archives. -/
def trueZip : TrueZip where
  stored time := time / 2000 * 2000
  dirTime _ := 0
  cp_p srcFile archFile a :=
    match srcFile with
    | some (.file content time true) =>
      if a archFile = some .dir then .error .fileNotFoundException
      else if a.clear archFile then .ok (a.write archFile content (time / 2000 * 2000))
      else .error .ioException
    | _ => .error .fileNotFoundException
  mkdirs archFile a := a.mkdirs archFile
  archiveCopyAllTo := unpacked

theorem documented_trueZip : trueZip.Documented where
  copies content time ns a hdir hclear := (if_neg hdir).trans (if_pos hclear)
  unreadable _ _ _ _ := rfl
  directory c ns a hdir := by
    cases c with
    | file content time canRead => cases hdir
    | locked time => rfl
    | dir time es => rfl
    | link destination target => rfl
    | dangling destination => rfl
  makes ns a := mkdirs_eq
  copiesAll _ := rfl

/-- A directory `/srv/docs` with a file. -/
def docs (content : List UInt8) (time : ℕ) : Tree := .dir 0 [(aTxt, .file content time true)]

theorem isMetadata_docs {ns : List Name} (h : IsMetadata "/srv/docs".toList ns) :
    pathText ns = "/.docs-archive-metadata.symlinks".toList := by
  have hlast : (split "/srv/docs".toList).getLast? = some "docs".toList := by decide
  rw [isMetadata_iff hlast] at h
  rw [h]
  decide

theorem find_docs {content : List UInt8} {time : ℕ} {n : Name} {ns : List Name} {c : Tree}
    (h : (docs content time).find (n :: ns) = some c) :
    n = aTxt ∧ ns = [] ∧ c = .file content time true := by
  obtain ⟨d, hd, hc⟩ := exists_entry h
  obtain ⟨rfl, rfl⟩ : n = aTxt ∧ d = .file content time true := by
    simpa [docs, Tree.entries] using hd
  rcases ns with _ | ⟨m, ns⟩
  · exact ⟨rfl, rfl, (Option.some.inj hc).symm⟩
  · cases hc

theorem archivable_docs (content : List UInt8) (time : ℕ) :
    Archivable "/srv/docs".toList (docs content time) where
  listed := rfl
  readable := by
    refine readable_files fun e he => ?_
    obtain rfl : e = (aTxt, .file) := List.mem_singleton.mp he
    rfl
  free ns hns := by
    have htext := isMetadata_docs hns
    rcases hfind : (docs content time).find ns with _ | c
    · rfl
    · rcases ns with _ | ⟨n, ns⟩
      · cases htext
      · obtain ⟨rfl, rfl, -⟩ := find_docs hfind
        cases htext

end ServeD.Utils.Backup
