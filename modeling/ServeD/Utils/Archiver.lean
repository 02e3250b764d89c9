import ServeD.Lib.FileTrees
import ServeD.Lib.Integers
import ServeD.Lib.Patterns

/-! # Compacting a backup

`SvdArchiver.scala`, `gatherAllDirsRecursively` and `compact`. The paths of the files in the source
and in the archive are made relative by cutting the path of the source, and the name of the archive,
off as regular expressions, and are then compared as texts. An archive is a tree like the source, as
TrueZIP shows it.

* `gather_spec`: the directories that are gathered are all directories of the trees, if each can be
  listed.
* `compact_files`: what `compact` leaves of the files in terms of the relative paths, `compact_spec`
  for a path without special characters;
* `compacts_iff`: when these are the files that are still in the source. -/

namespace ServeD.Utils.Archiver

open ServeD.Lib ServeD.Lib.Texts ServeD.Lib.Patterns ServeD.Lib.FileTrees

/-! ### The archiver -/

/-- A file or directory of the disk or of an archive. -/
structure TFile where
  /-- `getPath` -/
  path : Text
  node : Node

inductive Failure where
  | svdArchiveACLException (message : Text)
  | svdArchiveNonExistantException (message : Text)
  | nullPointerException
  /-- `last` of an empty array -/
  | noSuchElementException
  | patternSyntaxException
  deriving DecidableEq

namespace TFile

/-- `listFiles`, or `null`. -/
def listFiles (f : TFile) : Option (List TFile) :=
  match f.node with
  | .dir es => some (es.map fun e => ⟨f.path ++ '/' :: e.1.text, e.2⟩)
  | _ => none

def isDirectory (f : TFile) : Bool := f.node.isDirectory

def isFile (f : TFile) : Bool := f.node.isFile

/-- `listFiles` of a directory that has been listed before. -/
def children (f : TFile) : List TFile := f.listFiles.getD []

end TFile

def invalidACL (dir : TFile) : Failure := .svdArchiveACLException
  ("Invalid ACL on dir: ".toList ++ dir.path ++
    ". User must be owner of all archived files.".toList)

/-- The size of the trees that are still to be walked. -/
noncomputable def weight (fs : List TFile) : ℕ := (fs.map fun f => sizeOf f.node).sum

theorem weight_cons (f : TFile) (fs : List TFile) :
    weight (f :: fs) = sizeOf f.node + weight fs := by
  rw [weight, List.map_cons, List.sum_cons]
  rfl

theorem weight_append (fs gs : List TFile) : weight (fs ++ gs) = weight fs + weight gs := by
  rw [weight, List.map_append, List.sum_append]
  rfl

theorem weight_filter_le (p : TFile → Bool) (fs : List TFile) :
    weight (fs.filter p) ≤ weight fs := by
  induction fs with
  | nil => exact Nat.le_refl _
  | cons f fs ih =>
    rw [List.filter_cons]
    split_ifs
    · rw [weight_cons, weight_cons]
      omega
    · rw [weight_cons]
      omega

theorem weight_listFiles {f : TFile} {l : List TFile} (h : f.listFiles = some l) :
    weight l < sizeOf f.node := by
  obtain ⟨path, _ | _ | es⟩ := f
  · cases h
  · cases h
  · obtain rfl := Option.some.inj h
    have hle : ∀ es : List (Name × Node), weight (es.map fun e => ⟨path ++ '/' :: e.1.text, e.2⟩) ≤
      sizeOf es := by
      intro es
      induction es with
      | nil => exact Nat.zero_le _
      | cons e es ih =>
        have hpair : sizeOf e = 1 + sizeOf e.1 + sizeOf e.2 := by cases e; rfl
        rw [List.map_cons, weight_cons, List.cons.sizeOf_spec]
        change sizeOf e.2 + _ ≤ _
        omega
    have hdir : sizeOf (Node.dir es) = 1 + sizeOf es := Node.dir.sizeOf_spec es
    have hes := hle es
    change weight (es.map fun e => ⟨path ++ '/' :: e.1.text, e.2⟩) < sizeOf (Node.dir es)
    omega

/-- A directory weighs more than the directories in it. -/
theorem weight_step {dir : TFile} {l : List TFile} (tail : List TFile)
    (h : dir.listFiles = some l) :
    weight (tail ++ l.filter TFile.isDirectory) < weight (dir :: tail) := by
  have hlist := weight_listFiles h
  have hle := weight_filter_le TFile.isDirectory l
  rw [weight_append, weight_cons]
  omega

/-- `gatherAllDirsRecursively`. -/
def gatherAllDirsRecursively (rootDir gathered : List TFile) : Except Failure (List TFile) :=
  match rootDir with
  | [] => .ok gathered
  | dir :: tail =>
    match _h : dir.listFiles with
    | none => if dir.isDirectory then .error (invalidACL dir) else .error .nullPointerException
    | some dirListCore =>
      let dirList := dirListCore.filter TFile.isDirectory
      if dirList.isEmpty then gatherAllDirsRecursively tail (gathered ++ [dir])
      else gatherAllDirsRecursively (tail ++ dirList) (gathered ++ [dir])
termination_by weight rootDir
decreasing_by
  · have hlist := weight_listFiles _h
    rw [weight_cons]
    omega
  · exact weight_step tail _h

/-- The order in which a parallel collection handles its elements. -/
structure Schedule where
  order : List Text → List Text
  perm : ∀ l, (order l).Perm l

def defaultBackupFileExtension : Text := "zip.raes".toList

/-- The directory with the archives, of an account or of the system. -/
def backupDir : Option ℤ → Text
  | some uid => "/Users/".toList ++ (toString uid).toList ++ "/Backup/".toList
  | none => "/Backup/".toList

/-- The name of the archive, which is used as a pattern too. -/
def archiveName (trimmedFileName : Text) : Text :=
  trimmedFileName ++ '.' :: defaultBackupFileExtension

def symlinkMetadataFile (trimmedFileName : Text) : Text :=
  "/.".toList ++ trimmedFileName ++ "-archive-metadata.symlinks".toList

/-- The paths of files after `^.*?pattern` is cut off. -/
def relativePaths (R : Regex) (pattern : Text) (files : List TFile) : Except Failure (List Text) :=
  files.mapM fun f =>
    match R.replaceFirst ("^.*?".toList ++ pattern) f.path with
    | some a => .ok a
    | none => .error .patternSyntaxException

/-- `filterNot{_.getPath == symlinkMetadataFile}`: the texts are made files for it. -/
def withoutMetadata (trimmedFileName : Text) (paths : List Text) : List Text :=
  paths.filter fun a => !(normalize a == symlinkMetadataFile trimmedFileName)

/-- `new TFile(baseName + diffPath).delete`, in the archive `baseName`:
without a slash it is a file beside it. -/
def deletePath (root : Node) (diffPath : Text) : Node :=
  if diffPath.head? = some '/' then root.delete (namesOf diffPath) else root

/-- `compact`: the archive afterwards, for the nodes at the source path and at the path
of the archive. -/
def compact (R : Regex) (S : Schedule) (userAccount : Option ℤ) (fileOrDirectoryPath : Text)
    (source archive : Option Node) : Except Failure Node := do
  let trimmedFileName ←
    match (split fileOrDirectoryPath).getLast? with
    | some name => Except.ok name
    | none => .error .noSuchElementException
  let baseName := backupDir userAccount ++ archiveName trimmedFileName
  match source.bind fun t => TFile.listFiles ⟨normalize fileOrDirectoryPath, t⟩ with
  | none =>
    if source.isSome then .error (.svdArchiveACLException
      ("ACL access failure to file: ".toList ++ fileOrDirectoryPath ++
        ". Operation is aborted.".toList))
    else .error (.svdArchiveNonExistantException
      ("Given source directory doesn't exists: ".toList ++ fileOrDirectoryPath ++
        ". Operation is aborted.".toList))
  | some sourceFiles =>
    match archive with
    | none => .error (.svdArchiveNonExistantException ("Destination archive not found: ".toList ++
      fileOrDirectoryPath ++
        ". Nothing to add nor remove. Operation is aborted.".toList))
    | some root =>
      let gatheredDirList ← gatherAllDirsRecursively (sourceFiles.filter TFile.isDirectory) []
      match TFile.listFiles ⟨normalize baseName, root⟩ with
      | none => return root
      | some rawArchiveList =>
        let allArchiveDirs ← gatherAllDirsRecursively (rawArchiveList.filter TFile.isDirectory) []
        let allSrc ← relativePaths R fileOrDirectoryPath
          (gatheredDirList.flatMap TFile.children ++ sourceFiles.filter TFile.isFile)
        let allDst ← relativePaths R (archiveName trimmedFileName)
          (allArchiveDirs.flatMap TFile.children ++ rawArchiveList.filter TFile.isFile)
        let diffRemoved := (withoutMetadata trimmedFileName allDst).filter fun a =>
          !(withoutMetadata trimmedFileName allSrc).contains a
        return (S.order diffRemoved).foldl deletePath root

/-! ### What compacting is for -/

/-- The names of the metadata file. -/
def IsMetadata (path : Text) (ns : List Name) : Prop :=
  ∃ name, (split path).getLast? = some name ∧ pathText ns = symlinkMetadataFile name

/-- **`compact` leaves exactly the files that are still in the source.** -/
def Compacts (R : Regex) (S : Schedule) (userAccount : Option ℤ) (path : Text)
    (source archive : Node) : Prop :=
  ∃ final, compact R S userAccount path (some source) (some archive) = .ok final ∧
    ∀ ns, ¬ IsMetadata path ns → (Has final ns .file ↔ Has archive ns .file ∧ ∃ c, Has source ns c)

/-! ### Gathering directories -/

/-- The directory is `f` or one below it. -/
def Below (f g : TFile) : Prop :=
  ∃ ns c, Has f.node ns c ∧ c.isDirectory = true ∧ g = ⟨f.path ++ pathText ns, c⟩

section Gather

variable {f g : TFile} {l : List TFile}

theorem eq_dir_of_listFiles (h : f.listFiles = some l) :
    ∃ es, f.node = .dir es ∧ l = es.map fun e => ⟨f.path ++ '/' :: e.1.text, e.2⟩ := by
  obtain ⟨path, _ | _ | es⟩ := f
  · cases h
  · cases h
  · exact ⟨es, rfl, (Option.some.inj h).symm⟩

theorem isDirectory_of_has {t c : Node} {ns : List Name} (h : Has t ns c)
    (hc : c.isDirectory = true) :
    t.isDirectory = true := by
  rcases t with _ | _ | es
  · rcases ns with _ | ⟨n, ns⟩
    · obtain rfl := has_nil.mp h
      exact hc
    · exact absurd h not_has_file
  · rfl
  · rfl

theorem below_iff (h : f.listFiles = some l) : Below f g ↔
    g = f ∨ ∃ c ∈ l, c.isDirectory = true ∧ Below c g := by
  obtain ⟨es, hnode, rfl⟩ := eq_dir_of_listFiles h
  constructor
  · rintro ⟨ns, c, hc, hdir, rfl⟩
    rw [hnode] at hc
    rcases ns with _ | ⟨n, ns⟩
    · obtain rfl := has_nil.mp hc
      refine .inl ?_
      rw [← hnode, pathText, List.flatMap_nil, List.append_nil]
    · obtain ⟨t, hes, ht⟩ := has_dir.mp hc
      refine .inr ⟨_, List.mem_map.mpr ⟨(n, t), hes, rfl⟩, isDirectory_of_has ht hdir, ns,
        c, ht, hdir, ?_⟩
      rw [pathText_cons, List.append_assoc, List.cons_append]
  · rintro (rfl | ⟨c, hmem, -, ns, d, hd, hdir, rfl⟩)
    · refine ⟨[], g.node, .here, ?_, ?_⟩
      · rw [hnode]
        rfl
      · rw [pathText, List.flatMap_nil, List.append_nil]
    · obtain ⟨⟨n, t⟩, hes, rfl⟩ := List.mem_map.mp hmem
      refine ⟨n :: ns, d, hnode ▸ .enter hes hd, hdir, ?_⟩
      rw [pathText_cons, List.append_assoc, List.cons_append]

theorem readable_iff (h : f.listFiles = some l) :
    Readable f.node ↔ ∀ c ∈ l, c.isDirectory = true → Readable c.node := by
  obtain ⟨es, hnode, rfl⟩ := eq_dir_of_listFiles h
  rw [hnode]
  constructor
  · intro hread c hmem _ ns hns
    obtain ⟨⟨n, t⟩, hes, rfl⟩ := List.mem_map.mp hmem
    exact hread (n :: ns) (.enter hes hns)
  · intro hread ns hns
    rcases ns with _ | ⟨n, ns⟩
    · cases has_nil.mp hns
    · obtain ⟨t, hes, ht⟩ := has_dir.mp hns
      exact hread _ (List.mem_map.mpr ⟨(n, t), hes, rfl⟩) (isDirectory_of_has ht rfl) ns ht

/-- One step: the directory is gathered, and its directories are walked after all others. -/
theorem gather_step {dir : TFile} {tail acc : List TFile} (h : dir.listFiles = some l) :
    gatherAllDirsRecursively (dir :: tail) acc =
      gatherAllDirsRecursively (tail ++ l.filter TFile.isDirectory) (acc ++ [dir]) := by
  rw [gatherAllDirsRecursively]
  split
  · next hnone =>
    rw [h] at hnone
    cases hnone
  · next l' hsome =>
    obtain rfl := Option.some.inj (h.symm.trans hsome)
    dsimp only
    split_ifs with hempty
    · rw [List.isEmpty_iff.mp hempty, List.append_nil]
    · rfl

theorem gather_locked {dir : TFile} {tail acc : List TFile} (h : dir.listFiles = none)
    (hdir : dir.isDirectory = true) :
    gatherAllDirsRecursively (dir :: tail) acc = .error (invalidACL dir) := by
  rw [gatherAllDirsRecursively]
  split
  · rw [if_pos hdir]
  · next hsome =>
    rw [h] at hsome
    cases hsome

/-- **All directories are gathered, or one of them cannot be listed.** -/
theorem gather_spec (q acc : List TFile) (hq : ∀ f ∈ q, f.isDirectory = true) :
    ((∀ f ∈ q, Readable f.node) ∧ ∃ l, gatherAllDirsRecursively q acc = .ok l ∧
      ∀ g, g ∈ l ↔ g ∈ acc ∨ ∃ f ∈ q, Below f g) ∨
    ((∃ f ∈ q, ¬ Readable f.node) ∧ ∃ e, gatherAllDirsRecursively q acc = .error e) := by
  -- by the size of the trees that are still to be walked
  induction hw : weight q using Nat.strongRecOn generalizing q acc with
  | ind w ih =>
    rcases q with _ | ⟨dir, tail⟩
    · refine .inl ⟨fun f hf => absurd hf List.not_mem_nil, acc, ?_, ?_⟩
      · rw [gatherAllDirsRecursively]
      · simp
    · have hdir := hq dir List.mem_cons_self
      rcases hl : dir.listFiles with _ | l
      · refine .inr ⟨⟨dir, List.mem_cons_self, ?_⟩, _, gather_locked hl hdir⟩
        obtain ⟨path, _ | _ | es⟩ := dir
        · cases hdir
        · exact fun hread => hread [] .here
        · cases hl
      · have hlt : weight (tail ++ l.filter TFile.isDirectory) < w := hw ▸ weight_step tail hl
        have hq' : ∀ f ∈ tail ++ l.filter TFile.isDirectory, f.isDirectory = true := by
          intro f hf
          rcases List.mem_append.mp hf with hf | hf
          · exact hq f (List.mem_cons_of_mem dir hf)
          · exact (List.mem_filter.mp hf).2
        have hchild : ∀ f, f ∈ l.filter TFile.isDirectory ↔ f ∈ l ∧ f.isDirectory = true :=
          fun f => List.mem_filter
        rw [gather_step hl]
        rcases ih _ hlt (tail ++ l.filter TFile.isDirectory) (acc ++ [dir]) hq' rfl with
          ⟨hread, l', hok, hmem⟩ | ⟨⟨f, hf, hlocked⟩, e, he⟩
        · refine .inl ⟨fun f hf => ?_, l', hok, fun g => ?_⟩
          · rcases List.mem_cons.mp hf with rfl | hf
            · exact (readable_iff hl).mpr fun c hc hcdir =>
                hread c (List.mem_append_right tail ((hchild c).mpr ⟨hc, hcdir⟩))
            · exact hread f (List.mem_append_left _ hf)
          · rw [hmem]
            simp only [List.mem_append, List.mem_cons, List.not_mem_nil, or_false, hchild,
              or_and_right, exists_or, and_assoc, exists_eq_left, below_iff hl]
            rw [or_assoc, or_assoc, or_comm (a := ∃ x, x ∈ tail ∧ Below x g)]
        · refine .inr ⟨?_, e, he⟩
          rcases List.mem_append.mp hf with hf | hf
          · exact ⟨f, List.mem_cons_of_mem dir hf, hlocked⟩
          · obtain ⟨hfl, hfdir⟩ := (hchild f).mp hf
            exact ⟨dir, List.mem_cons_self, fun hread =>
              hlocked ((readable_iff hl).mp hread f hfl hfdir)⟩

/-- What is gathered in a directory that can be read. -/
theorem gather_readable (h : f.listFiles = some l) (hread : Readable f.node) :
    ∃ dirs, gatherAllDirsRecursively (l.filter TFile.isDirectory) [] = .ok dirs ∧
      ∀ g, g ∈ dirs ↔ ∃ c ∈ l.filter TFile.isDirectory, Below c g := by
  rcases gather_spec (l.filter TFile.isDirectory) [] fun c hc => (List.mem_filter.mp hc).2 with
    ⟨-, dirs, hok, hmem⟩ | ⟨⟨c, hc, hlocked⟩, -⟩
  · exact ⟨dirs, hok, fun g => by simpa using hmem g⟩
  · obtain ⟨hcl, hdir⟩ := List.mem_filter.mp hc
    exact absurd ((readable_iff h).mp hread c hcl hdir) hlocked

end Gather

/-! ### The listed paths -/

/-- The paths that are compared: all below the root but the directories in the root itself. -/
def Listed (t : Node) (ns : List Name) : Prop :=
  (ns.length = 1 ∧ Has t ns .file) ∨ (2 ≤ ns.length ∧ ∃ c, Has t ns c)

section Listed

variable {root : TFile} {rootFiles dirs : List TFile}

theorem mem_children {f g : TFile} : f ∈ g.children ↔ ∃ es e, g.node = .dir es ∧ e ∈ es ∧
    f = ⟨g.path ++ '/' :: e.1.text, e.2⟩ := by
  obtain ⟨path, _ | _ | es⟩ := g
  · simp [TFile.children, TFile.listFiles]
  · simp [TFile.children, TFile.listFiles]
  · simp only [TFile.children, TFile.listFiles, Option.getD_some, List.mem_map, Node.dir.injEq]
    constructor
    · rintro ⟨e, he, rfl⟩
      exact ⟨es, e, rfl, he, rfl⟩
    · rintro ⟨_, e, rfl, he, rfl⟩
      exact ⟨e, he, rfl⟩

/-- What is in the gathered directories. -/
theorem mem_gathered_children (hroot : root.listFiles = some rootFiles)
    (hdirs : ∀ g, g ∈ dirs ↔ ∃ f ∈ rootFiles.filter TFile.isDirectory, Below f g) (a : Text) :
    a ∈ (dirs.flatMap TFile.children).map TFile.path ↔
      ∃ ns, (2 ≤ ns.length ∧ ∃ c, Has root.node ns c) ∧ a = root.path ++ pathText ns := by
  obtain ⟨es, hnode, rfl⟩ := eq_dir_of_listFiles hroot
  constructor
  · intro ha
    obtain ⟨f, hf, rfl⟩ := List.mem_map.mp ha
    obtain ⟨g, hg, hfg⟩ := List.mem_flatMap.mp hf
    obtain ⟨r, hr, ms, c, hc, -, rfl⟩ := (hdirs g).mp hg
    obtain ⟨⟨n, t⟩, hes, rfl⟩ := List.mem_map.mp (List.mem_filter.mp hr).1
    obtain ⟨es', ⟨k, x⟩, rfl, hk, rfl⟩ := mem_children.mp hfg
    refine ⟨n :: (ms ++ [k]), ⟨by simp, x, ?_⟩, ?_⟩
    · rw [hnode]
      exact .enter hes (has_concat.mpr ⟨es', hc, hk⟩)
    · simp [pathText]
  · rintro ⟨ns, ⟨hlen, c, hc⟩, rfl⟩
    obtain ⟨n, ms, k, rfl⟩ : ∃ n ms k, ns = n :: (ms ++ [k]) := by
      rcases ns with _ | ⟨n, ns⟩
      · cases hlen
      · rcases List.eq_nil_or_concat' ns with rfl | ⟨ms, k, rfl⟩
        · cases hlen with
          | step h => cases h
        · exact ⟨n, ms, k, rfl⟩
    rw [hnode] at hc
    obtain ⟨t, hes, ht⟩ := has_dir.mp hc
    obtain ⟨es', hdir, hk⟩ := has_concat.mp ht
    refine List.mem_map.mpr ⟨⟨root.path ++ '/' :: n.text ++ pathText ms ++ '/' :: k.text, c⟩, ?_,
      ?_⟩
    · refine List.mem_flatMap.mpr ⟨⟨root.path ++ '/' :: n.text ++ pathText ms, .dir es'⟩, ?_, ?_⟩
      · refine (hdirs _).mpr ⟨⟨root.path ++ '/' :: n.text, t⟩, ?_, ms, .dir es', hdir, rfl, rfl⟩
        exact List.mem_filter.mpr ⟨List.mem_map.mpr ⟨(n, t), hes, rfl⟩, isDirectory_of_has hdir rfl⟩
      · exact mem_children.mpr ⟨es', (k, c), rfl, hk, rfl⟩
    · simp [pathText]

/-- What is in the root itself. -/
theorem mem_rootFiles (hroot : root.listFiles = some rootFiles) (a : Text) :
    a ∈ (rootFiles.filter TFile.isFile).map TFile.path ↔
      ∃ ns, (ns.length = 1 ∧ Has root.node ns .file) ∧ a = root.path ++ pathText ns := by
  obtain ⟨es, hnode, rfl⟩ := eq_dir_of_listFiles hroot
  constructor
  · intro ha
    obtain ⟨f, hf, rfl⟩ := List.mem_map.mp ha
    obtain ⟨hmem, hfile⟩ := List.mem_filter.mp hf
    obtain ⟨⟨n, t⟩, hes, rfl⟩ := List.mem_map.mp hmem
    obtain rfl : t = .file := by
      rcases t with _ | _ | es'
      · rfl
      · cases hfile
      · cases hfile
    refine ⟨[n], ⟨rfl, ?_⟩, ?_⟩
    · rw [hnode]
      exact .enter hes .here
    · simp [pathText]
  · rintro ⟨ns, ⟨hlen, hfile⟩, rfl⟩
    obtain ⟨n, rfl⟩ := List.length_eq_one_iff.mp hlen
    rw [hnode] at hfile
    obtain ⟨t, hes, ht⟩ := has_dir.mp hfile
    obtain rfl := has_nil.mp ht
    refine List.mem_map.mpr ⟨⟨root.path ++ '/' :: n.text, .file⟩, List.mem_filter.mpr ⟨?_, rfl⟩, ?_⟩
    · exact List.mem_map.mpr ⟨(n, .file), hes, rfl⟩
    · simp [pathText]

/-- The paths of all files that are compared. -/
theorem mem_listed (hroot : root.listFiles = some rootFiles)
    (hdirs : ∀ g, g ∈ dirs ↔ ∃ f ∈ rootFiles.filter TFile.isDirectory, Below f g) (a : Text) :
    a ∈ (dirs.flatMap TFile.children ++ rootFiles.filter TFile.isFile).map TFile.path ↔
      ∃ ns, Listed root.node ns ∧ a = root.path ++ pathText ns := by
  rw [List.map_append, List.mem_append, mem_gathered_children hroot hdirs, mem_rootFiles hroot]
  simp only [Listed, or_and_right, exists_or]
  exact or_comm

/-- What is left of a listed path when the pattern is cut off. -/
def Cuts (R : Regex) (pattern : Text) (root : TFile) (a : Text) : Prop :=
  ∃ ns, Listed root.node ns ∧ R.replaceFirst ("^.*?".toList ++ pattern) (root.path ++ pathText ns) =
    some a

/-- The syntax of the pattern is right, or nothing is listed, so that it is not looked at. -/
def Accepts (R : Regex) (pattern : Text) (root : TFile) : Prop :=
  ∀ ns, Listed root.node ns → (R.replaceFirst ("^.*?".toList ++ pattern)
    (root.path ++ pathText ns)).isSome = true

/-- Every path is cut, or the syntax of the pattern is wrong. -/
theorem relativePaths_spec (R : Regex) (pattern : Text) (files : List TFile) :
    ((∀ f ∈ files, (R.replaceFirst ("^.*?".toList ++ pattern) f.path).isSome = true) ∧
      ∃ l, relativePaths R pattern files = .ok l ∧
        ∀ a, a ∈ l ↔ ∃ f ∈ files, R.replaceFirst ("^.*?".toList ++ pattern) f.path = some a) ∨
    ((∃ f ∈ files, R.replaceFirst ("^.*?".toList ++ pattern) f.path = none) ∧
      ∃ e, relativePaths R pattern files = .error e) := by
  induction files with
  | nil => exact .inl ⟨by simp, [], rfl, by simp⟩
  | cons f files ih =>
    rw [relativePaths, List.mapM_cons]
    rcases hf : R.replaceFirst ("^.*?".toList ++ pattern) f.path with _ | b
    · exact .inr ⟨⟨f, List.mem_cons_self, hf⟩, _, rfl⟩
    · rcases ih with ⟨hall, l, hl, hmem⟩ | ⟨⟨g, hg, hnone⟩, e, he⟩
      · rw [relativePaths] at hl
        refine .inl ⟨?_, b :: l, by rw [hl]; rfl, fun a => ?_⟩
        · intro g hg
          rcases List.mem_cons.mp hg with rfl | hg
          · rw [hf]
            rfl
          · exact hall g hg
        · simp only [List.mem_cons, exists_eq_or_imp, hf, Option.some.injEq, hmem]
          exact or_congr_left eq_comm
      · rw [relativePaths] at he
        exact .inr ⟨⟨g, List.mem_cons_of_mem f hg, hnone⟩, e, by rw [he]; rfl⟩

/-- The paths that are compared, if the pattern is accepted. -/
theorem relativePaths_listed (R : Regex) (pattern : Text) (hroot : root.listFiles = some rootFiles)
    (hdirs : ∀ g, g ∈ dirs ↔ ∃ f ∈ rootFiles.filter TFile.isDirectory, Below f g) :
    (Accepts R pattern root ∧
      ∃ l, relativePaths R pattern (dirs.flatMap TFile.children ++ rootFiles.filter TFile.isFile) =
        .ok l ∧
        ∀ a, a ∈ l ↔ Cuts R pattern root a) ∨
    (¬ Accepts R pattern root ∧
      ∃ e, relativePaths R pattern (dirs.flatMap TFile.children ++ rootFiles.filter TFile.isFile) =
        .error e) := by
  obtain ⟨files, hfiles⟩ : ∃ l, l = dirs.flatMap TFile.children ++ rootFiles.filter TFile.isFile :=
    ⟨_, rfl⟩
  have hlisted : ∀ b, (∃ f ∈ files, f.path = b) ↔
    ∃ ns, Listed root.node ns ∧ b = root.path ++ pathText ns := by
    intro b
    rw [← mem_listed hroot hdirs, ← hfiles, List.mem_map]
  rw [← hfiles]
  rcases relativePaths_spec R pattern files with ⟨hall, l, hl, hmem⟩ | ⟨⟨f, hf, hnone⟩, he⟩
  · refine .inl ⟨fun ns hns => ?_, l, hl, fun a => ?_⟩
    · obtain ⟨f, hf, hpath⟩ := (hlisted _).mpr ⟨ns, hns, rfl⟩
      rw [← hpath]
      exact hall f hf
    · rw [hmem]
      constructor
      · rintro ⟨f, hf, hcut⟩
        obtain ⟨ns, hns, hpath⟩ := (hlisted f.path).mp ⟨f, hf, rfl⟩
        exact ⟨ns, hns, by rw [← hpath, hcut]⟩
      · rintro ⟨ns, hns, hcut⟩
        obtain ⟨f, hf, hpath⟩ := (hlisted _).mpr ⟨ns, hns, rfl⟩
        exact ⟨f, hf, by rw [hpath, hcut]⟩
  · refine .inr ⟨fun hall => ?_, he⟩
    obtain ⟨ns, hns, hpath⟩ := (hlisted f.path).mp ⟨f, hf, rfl⟩
    have hsome := hall ns hns
    rw [← hpath, hnone] at hsome
    cases hsome

theorem accepts_simple (R : Regex) {pattern : Text} (h : Simple pattern) (root : TFile) :
    Accepts R pattern root := by
  intro ns _
  rw [R.simple pattern _ h]
  rfl

theorem cuts_simple (R : Regex) {pattern : Text} (h : Simple pattern) (root : TFile) (a : Text) :
    Cuts R pattern root a ↔ ∃ ns, Listed root.node ns ∧
      cutFirst pattern (root.path ++ pathText ns) = a := by
  simp only [Cuts, R.simple pattern _ h, Option.some.injEq]

end Listed

/-! ### Relative paths in the archive -/

section Archive

variable {name : Text}

/-- The parts of the path of an archive. -/
theorem baseName_eq (userAccount : Option ℤ) (hname : '/' ∉ name) :
    ∃ ns, backupDir userAccount ++ archiveName name = pathText ns := by
  have harchive : '/' ∉ archiveName name := by
    have hext : '/' ∉ '.' :: defaultBackupFileExtension := by decide
    exact fun h => (List.mem_append.mp h).elim hname hext
  have hne : archiveName name ≠ [] := by simp [archiveName]
  have hbackup : "/Backup/".toList = '/' :: ("Backup".toList ++ ['/']) := by decide
  have husers : "/Users/".toList = '/' :: ("Users".toList ++ ['/']) := by decide
  rcases userAccount with _ | uid
  · refine ⟨[⟨"Backup".toList, by decide, by decide⟩, ⟨archiveName name, hne, harchive⟩], ?_⟩
    unfold backupDir
    rw [hbackup, pathText_cons, pathText_cons]
    simp [pathText]
  · have huid : '/' ∉ (toString uid).toList := by
      intro h
      rcases Integers.mem_toString h with h | h <;> cases h
    refine ⟨[⟨"Users".toList, by decide, by decide⟩,
      ⟨(toString uid).toList, Integers.toList_toString_ne_nil uid, huid⟩,
      ⟨"Backup".toList, by decide, by decide⟩, ⟨archiveName name, hne, harchive⟩], ?_⟩
    unfold backupDir
    rw [hbackup, husers, pathText_cons, pathText_cons, pathText_cons, pathText_cons]
    simp [pathText]

/-- **The name of the archive is not found before it**,
since no directory of archives has a `z` in its path. -/
theorem cutFirst_archive (userAccount : Option ℤ) (r : Text) :
    cutFirst (archiveName name) (backupDir userAccount ++ archiveName name ++ r) = r := by
  have hz : 'z' ∈ archiveName name := List.mem_append_right name (by decide)
  have hchars : ∀ c ∈ backupDir userAccount, c ≠ 'z' ∧ isLineEnd c = false := by
    have husers : "/Users/".toList.all (fun c => c != 'z' && !isLineEnd c) = true := by decide
    have hbackup : "/Backup/".toList.all (fun c => c != 'z' && !isLineEnd c) = true := by decide
    have huid : ∀ (uid : ℤ), ∀ c ∈ (toString uid).toList, c ≠ 'z' ∧ isLineEnd c = false := by
      intro uid c hc
      rcases Integers.mem_toString hc with rfl | hdigit
      · exact ⟨by decide, by decide⟩
      · refine ⟨?_, isLineEnd_of_isDigit hdigit⟩
        rintro rfl
        cases hdigit
    intro c hc
    rcases userAccount with _ | uid
    · simpa using List.all_eq_true.mp hbackup c hc
    · unfold backupDir at hc
      rcases List.mem_append.mp hc with hc | hc
      · rcases List.mem_append.mp hc with hc | hc
        · simpa using List.all_eq_true.mp husers c hc
        · exact huid uid c hc
      · simpa using List.all_eq_true.mp hbackup c hc
  have hcut : cut (archiveName name) (backupDir userAccount ++ (archiveName name ++ r)) =
    some r := by
    rw [cut_skip (fun c hc => (hchars c hc).2), cut_self]
    intro t ht hne
    exact matchHere_before hz (by decide) (fun h => (hchars 'z' h).1 rfl) ht hne
  rw [cutFirst, List.append_assoc, hcut, Option.getD_some]

end Archive

/-! ### What is deleted -/

/-- The path is that of the entry with these names. -/
def Deletes (a : Text) (ns : List Name) : Prop := ns ≠ [] ∧ a.head? = some '/' ∧ namesOf a = ns

theorem deletes_pathText {ms ns : List Name} : Deletes (pathText ms) ns ↔ ns ≠ [] ∧ ms = ns := by
  rw [Deletes, namesOf_pathText]
  refine and_congr_right fun hns => and_iff_right_of_imp ?_
  rintro rfl
  obtain ⟨n, ms, rfl⟩ := List.exists_cons_of_ne_nil hns
  rfl

theorem has_deletePath {a : Text} {t : Node} {ns : List Name} :
    Has (deletePath t a) ns .file ↔ Has t ns .file ∧ ¬ Deletes a ns := by
  rw [deletePath]
  split_ifs with hhead
  · by_cases hnames : namesOf a = []
    · have hno : ¬ Deletes a ns := fun h => h.1 (h.2.2.symm.trans hnames)
      rw [hnames, and_iff_left hno]
      rfl
    · rw [has_delete_iff hnames]
      refine and_congr_right fun _ => not_congr ⟨?_, fun h => h.2.2.symm⟩
      rintro rfl
      exact ⟨hnames, hhead, rfl⟩
  · exact (and_iff_left fun h => hhead h.2.1).symm

/-- The files after several entries are deleted, in any order. -/
theorem has_foldl_deletePath (paths : List Text) (t : Node) (ns : List Name) :
    Has (paths.foldl deletePath t) ns .file ↔ Has t ns .file ∧ ∀ a ∈ paths, ¬ Deletes a ns := by
  induction paths generalizing t with
  | nil => simp
  | cons a paths ih => rw [List.foldl_cons, ih, has_deletePath, List.forall_mem_cons, and_assoc]

/-- A path of the archive with these names is not found among those of the source. -/
def Deleted (R : Regex) (path name : Text) (source archive : TFile) (ns : List Name) : Prop :=
  ∃ a, Deletes a ns ∧ Cuts R (archiveName name) archive a ∧ normalize a ≠ symlinkMetadataFile name ∧
    ¬ Cuts R path source a

section Spec

variable (R : Regex) (S : Schedule) (userAccount : Option ℤ) {path name : Text}
    {source archive : TFile}
  {sourceFiles rawArchiveList : List TFile}

/-- The part of `compact` after its checks. -/
theorem compact_eq (hlast : (split path).getLast? = some name)
    (hsource : source.listFiles = some sourceFiles) (hpath : source.path = normalize path)
    (harchive : archive.listFiles = some rawArchiveList)
    (hbase : archive.path = normalize (backupDir userAccount ++ archiveName name)) :
    compact R S userAccount path (some source.node) (some archive.node) = (do
      let gatheredDirList ← gatherAllDirsRecursively (sourceFiles.filter TFile.isDirectory) []
      let allArchiveDirs ← gatherAllDirsRecursively (rawArchiveList.filter TFile.isDirectory) []
      let allSrc ← relativePaths R path
        (gatheredDirList.flatMap TFile.children ++ sourceFiles.filter TFile.isFile)
      let allDst ← relativePaths R (archiveName name)
        (allArchiveDirs.flatMap TFile.children ++ rawArchiveList.filter TFile.isFile)
      return (S.order ((withoutMetadata name allDst).filter fun a =>
        !(withoutMetadata name allSrc).contains a)).foldl deletePath archive.node) := by
  have hsource' : TFile.listFiles ⟨normalize path, source.node⟩ = some sourceFiles := by
    rw [← hpath]
    exact hsource
  have harchive' : TFile.listFiles ⟨normalize (backupDir userAccount ++ archiveName name),
    archive.node⟩ =
      some rawArchiveList := by
    rw [← hbase]
    exact harchive
  have hok : (Except.ok name : Except Failure Text) = pure name := rfl
  unfold compact
  simp only [hlast, hok, pure_bind, Option.bind_some, hsource', harchive']

/-- A directory fails to be gathered. -/
theorem compact_error (hlast : (split path).getLast? = some name)
    (hsource : source.listFiles = some sourceFiles) (hpath : source.path = normalize path)
    (harchive : archive.listFiles = some rawArchiveList)
    (hbase : archive.path = normalize (backupDir userAccount ++ archiveName name))
    (h : ¬ (Readable source.node ∧ Readable archive.node)) :
    ∃ e, compact R S userAccount path (some source.node) (some archive.node) = .error e := by
  have hfilter : ∀ l : List TFile, ∀ f ∈ l.filter TFile.isDirectory, f.isDirectory = true :=
    fun l f hf => (List.mem_filter.mp hf).2
  have hreadable : ∀ {root : TFile} {l : List TFile}, root.listFiles = some l →
      (∀ f ∈ l.filter TFile.isDirectory, Readable f.node) → Readable root.node := fun hl hall =>
    (readable_iff hl).mpr fun c hc hdir => hall c (List.mem_filter.mpr ⟨hc, hdir⟩)
  rw [compact_eq R S userAccount hlast hsource hpath harchive hbase]
  rcases gather_spec _ [] (hfilter sourceFiles) with ⟨hsrc, dirs, hok, -⟩ | ⟨-, e, he⟩
  · rcases gather_spec _ [] (hfilter rawArchiveList) with ⟨harc, dirs', hok', -⟩ | ⟨-, e, he⟩
    · exact absurd ⟨hreadable hsource hsrc, hreadable harchive harc⟩ h
    · exact ⟨e, by rw [hok, he]; rfl⟩
  · exact ⟨e, by rw [he]; rfl⟩

theorem mem_withoutMetadata {paths : List Text} {a : Text} : a ∈ withoutMetadata name paths ↔
    a ∈ paths ∧ normalize a ≠ symlinkMetadataFile name := by
  rw [withoutMetadata, List.mem_filter]
  simp

theorem ne_nil_of_listed {t : Node} {ns : List Name} (h : Listed t ns) : ns ≠ [] := by
  rintro rfl
  rcases h with ⟨hlen, -⟩ | ⟨hlen, -⟩
  · cases hlen
  · cases hlen

/-- A file of the archive is listed. -/
theorem listed_of_file {ns : List Name} (harchive : archive.listFiles = some rawArchiveList)
    (h : Has archive.node ns .file) : Listed archive.node ns := by
  obtain ⟨es, hnode, -⟩ := eq_dir_of_listFiles harchive
  rcases ns with _ | ⟨n, _ | ⟨m, ns⟩⟩
  · rw [hnode] at h
    cases has_nil.mp h
  · exact .inl ⟨rfl, h⟩
  · exact .inr ⟨by simp, .file, h⟩

/-- **What is left of the files**, for any path: those that are not found to be deleted, unless one
of the patterns is refused. -/
theorem compact_files (hlast : (split path).getLast? = some name)
    (hsource : source.listFiles = some sourceFiles) (hpath : source.path = normalize path)
    (harchive : archive.listFiles = some rawArchiveList)
    (hbase : archive.path = normalize (backupDir userAccount ++ archiveName name))
    (hsrc : Readable source.node) (harc : Readable archive.node) :
    ((Accepts R path source ∧ Accepts R (archiveName name) archive) ∧
      ∃ final, compact R S userAccount path (some source.node) (some archive.node) = .ok final ∧
        ∀ ns, Has final ns .file ↔ Has archive.node ns .file ∧
        ¬ Deleted R path name source archive ns) ∨
    (¬ (Accepts R path source ∧ Accepts R (archiveName name) archive) ∧
      ∃ e, compact R S userAccount path (some source.node) (some archive.node) = .error e) := by
  obtain ⟨dirs, hdirs, hmem⟩ := gather_readable hsource hsrc
  obtain ⟨dirs', hdirs', hmem'⟩ := gather_readable harchive harc
  rw [compact_eq R S userAccount hlast hsource hpath harchive hbase, hdirs, hdirs']
  rcases relativePaths_listed R path hsource hmem with ⟨haccept, allSrc, hallSrc, hmemSrc⟩ |
    ⟨hno, e, he⟩
  · rcases relativePaths_listed R (archiveName name) harchive hmem' with
      ⟨haccept', allDst, hallDst, hmemDst⟩ | ⟨hno, e, he⟩
    · have hdiff : ∀ a, a ∈ (withoutMetadata name allDst).filter
          (fun a => !(withoutMetadata name allSrc).contains a) ↔
            Cuts R (archiveName name) archive a ∧ normalize a ≠ symlinkMetadataFile name ∧
            ¬ Cuts R path source a := by
        intro a
        rw [List.mem_filter, mem_withoutMetadata, hmemDst, and_assoc]
        refine and_congr_right fun _ => and_congr_right fun hmeta => ?_
        rw [Bool.not_eq_true', ← Bool.not_eq_true, List.contains_iff_mem,
          mem_withoutMetadata, hmemSrc, and_iff_left hmeta]
      refine .inl ⟨⟨haccept, haccept'⟩, (S.order ((withoutMetadata name allDst).filter fun a =>
        !(withoutMetadata name allSrc).contains a)).foldl deletePath archive.node, ?_, fun ns => ?_⟩
      · change (relativePaths R path _ >>= fun allSrc =>
          relativePaths R (archiveName name) _ >>= fun allDst => _) = _
        rw [hallSrc, hallDst]
        rfl
      · rw [has_foldl_deletePath]
        refine and_congr_right fun _ => ?_
        simp only [(S.perm _).mem_iff, hdiff, Deleted, not_exists]
        exact forall_congr' fun a => ⟨fun h hd => h hd.2 hd.1, fun h hd hdel => h ⟨hdel, hd⟩⟩
    · refine .inr ⟨fun h => hno h.2, e, ?_⟩
      change (relativePaths R path _ >>= fun allSrc =>
        relativePaths R (archiveName name) _ >>= fun allDst => _) = _
      rw [hallSrc, he]
      rfl
  · refine .inr ⟨fun h => hno h.1, e, ?_⟩
    change (relativePaths R path _ >>= fun allSrc =>
      relativePaths R (archiveName name) _ >>= fun allDst => _) = _
    rw [he]
    rfl

theorem simple_archiveName (hsimple : Simple path) (hchars : ∀ c ∈ name, c ∈ path) :
    Simple (archiveName name) := by
  have hext : Simple ('.' :: defaultBackupFileExtension) := by decide
  intro c hc
  exact (List.mem_append.mp hc).elim (fun hc => hsimple c (hchars c hc)) fun hc => hext c hc

/-- The paths of the archive are cut as they should be. -/
theorem deleted_simple (hsimple : Simple path) (hname : '/' ∉ name) (hchars : ∀ c ∈ name, c ∈ path)
    (hpath : source.path = normalize path)
    (hbase : archive.path = normalize (backupDir userAccount ++ archiveName name)) {ns : List Name}
    (hns : Listed archive.node ns) : Deleted R path name source archive ns ↔
      pathText ns ≠ symlinkMetadataFile name ∧
      ¬ ∃ ms, Listed source.node ms ∧ cutFirst path (normalize path ++ pathText ms) =
        pathText ns := by
  have hbase' : archive.path = backupDir userAccount ++ archiveName name := by
    obtain ⟨bs, hbs⟩ := baseName_eq userAccount hname
    rw [hbase, hbs, normalize_pathText]
  have hcuts : ∀ a, Cuts R (archiveName name) archive a ↔
    ∃ ms, Listed archive.node ms ∧ pathText ms = a := by
    intro a
    rw [cuts_simple R (simple_archiveName hsimple hchars), hbase']
    simp only [cutFirst_archive]
  rw [Deleted]
  simp only [hcuts, cuts_simple R hsimple, hpath]
  constructor
  · rintro ⟨-, hdel, ⟨ms, -, rfl⟩, hmeta, hno⟩
    obtain ⟨-, rfl⟩ := deletes_pathText.mp hdel
    rw [normalize_pathText] at hmeta
    exact ⟨hmeta, hno⟩
  · rintro ⟨hmeta, hno⟩
    refine ⟨pathText ns, deletes_pathText.mpr ⟨ne_nil_of_listed hns, rfl⟩, ⟨ns, hns, rfl⟩, ?_, hno⟩
    rw [normalize_pathText]
    exact hmeta

/-- **What is left of the files** for a path without special characters: the metadata file, and
those whose path is among the relative paths of the source. -/
theorem compact_spec (hsimple : Simple path) (hlast : (split path).getLast? = some name)
    (hname : '/' ∉ name) (hchars : ∀ c ∈ name, c ∈ path)
    (hsource : source.listFiles = some sourceFiles) (hpath : source.path = normalize path)
    (harchive : archive.listFiles = some rawArchiveList)
    (hbase : archive.path = normalize (backupDir userAccount ++ archiveName name))
    (hsrc : Readable source.node) (harc : Readable archive.node) :
    ∃ final, compact R S userAccount path (some source.node) (some archive.node) = .ok final ∧ ∀ ns,
      Has final ns .file ↔ Has archive.node ns .file ∧ (pathText ns = symlinkMetadataFile name ∨
        ∃ ms, Listed source.node ms ∧ cutFirst path (normalize path ++ pathText ms) =
          pathText ns) := by
  rcases compact_files R S userAccount hlast hsource hpath harchive hbase hsrc harc with
    ⟨-, final, hcompact, hfiles⟩ | ⟨hno, -⟩
  · refine ⟨final, hcompact, fun ns => ?_⟩
    rw [hfiles]
    refine and_congr_right fun hfile => ?_
    rw [deleted_simple R userAccount hsimple hname hchars hpath hbase
      (listed_of_file harchive hfile), not_and_or, not_not, not_not]
  · exact absurd ⟨accepts_simple R hsimple source,
      accepts_simple R (simple_archiveName hsimple hchars) archive⟩ hno

end Spec

/-! ### Which paths are cut off -/

/-- There are no doubled and no trailing slashes. -/
def Clean (path : Text) : Prop := ¬ Doubled path ∧ path.getLast? ≠ some '/'

section Paths

variable {path : Text}

theorem Clean.hasName (h : Clean path) : HasName path := by
  rcases List.eq_nil_or_concat' path with rfl | ⟨s, c, rfl⟩
  · exact .inl rfl
  · refine .inr ⟨c, by simp, ?_⟩
    rintro rfl
    exact h.2 (by simp)

theorem cutFirst_clean (h : Clean path) (r : Text) : cutFirst path (normalize path ++ r) = r := by
  rw [normalize_of_clean h.1 h.2, cutFirst_self]

/-- With the slash at its end the path takes the first slash of the relative path. -/
theorem cutFirst_trailing (hdouble : ¬ Doubled path) (hlast : path.getLast? = some '/')
    (hname : HasName path) (n : Name) (ns : List Name) :
    cutFirst path (normalize path ++ pathText (n :: ns)) = n.text ++ pathText ns := by
  obtain ⟨s, rfl⟩ := List.getLast?_eq_some_iff.mp hlast
  have hs : s ≠ [] := by
    rintro rfl
    rcases hname with h | ⟨c, hc, hne⟩
    · cases h
    · exact hne (List.mem_singleton.mp hc)
  have hsplit : s ++ pathText (n :: ns) = (s ++ ['/']) ++ (n.text ++ pathText ns) := by
    rw [pathText_cons, List.append_assoc, List.singleton_append]
  rw [normalize_slash hdouble hs, hsplit, cutFirst_self]

/-- A path with doubled slashes matches nothing. -/
theorem cutFirst_doubled (hdouble : Doubled path) (hname : HasName path) (ns : List Name) :
    cutFirst path (normalize path ++ pathText ns) = normalize path ++ pathText ns := by
  have hclean : ¬ Doubled (normalize path ++ pathText ns) :=
    not_doubled_append (not_doubled_normalize path) (not_doubled_pathText ns)
      (getLast?_normalize hname)
  refine cutFirst_eq fun t ht => ?_
  rw [← Option.not_isSome_iff_eq_none]
  intro hsome
  obtain ⟨r, hr⟩ := Option.isSome_iff_exists.mp hsome
  obtain ⟨k, h₁, h₂⟩ := hdouble
  obtain ⟨b, hb⟩ := ht
  have hdot : ('/' : Char) ≠ '.' := by decide
  have ht : Doubled t := ⟨k, getElem?_of_matchHere hr h₁ hdot, getElem?_of_matchHere hr h₂ hdot⟩
  exact hclean (hb ▸ ht.of_append_right)

/-- The archived paths that are among the relative paths of the source. -/
theorem exists_listed_iff (hname : HasName path) (source : Node) (ns : List Name) :
    (∃ ms, Listed source ms ∧ cutFirst path (normalize path ++ pathText ms) = pathText ns) ↔
      (Clean path ∧ Listed source ns) ∨
        (Doubled path ∧ ∃ ms, Listed source ms ∧ normalize path ++ pathText ms = pathText ns) := by
  by_cases hdouble : Doubled path
  · have hclean : ¬ Clean path := fun h => h.1 hdouble
    simp only [cutFirst_doubled hdouble hname, hdouble, hclean, true_and, false_and, false_or]
  · by_cases hlast : path.getLast? = some '/'
    · have hclean : ¬ Clean path := fun h => h.2 hlast
      refine iff_of_false ?_ (by simp [hclean, hdouble])
      rintro ⟨ms, hms, heq⟩
      obtain ⟨n, ms, rfl⟩ := List.exists_cons_of_ne_nil (ne_nil_of_listed hms)
      rw [cutFirst_trailing hdouble hlast hname] at heq
      -- the relative path does not begin with a slash
      obtain ⟨c, t, ht⟩ := List.exists_cons_of_ne_nil n.ne_nil
      rcases ns with _ | ⟨m, ns⟩
      · rw [ht] at heq
        cases heq
      · rw [ht, pathText_cons, List.cons_append] at heq
        obtain ⟨rfl, -⟩ := List.cons.inj heq
        exact n.noSlash (ht ▸ List.mem_cons_self)
    · have hclean : Clean path := ⟨hdouble, hlast⟩
      simp only [cutFirst_clean hclean, hclean, hdouble, true_and, false_and, or_false]
      constructor
      · rintro ⟨ms, hms, heq⟩
        rwa [← pathText_inj heq]
      · exact fun h => ⟨ns, h, rfl⟩

end Paths

/-! ### When it compacts -/

/-- No file in the root of the archive has the name of a directory in the root of the source. -/
def NoClash (path : Text) (source archive : Node) : Prop :=
  ∀ n, ¬ IsMetadata path [n] → Has archive [n] .file → (∃ c, Has source [n] c) →
    Has source [n] .file

/-- No file of the archive is in the source, except where its path repeats the path of
the source itself. -/
def NothingToKeep (path : Text) (source archive : Node) : Prop :=
  ∀ ns, ¬ IsMetadata path ns → Has archive ns .file → ((∃ c, Has source ns c) ↔
    Doubled path ∧ ∃ ms, Listed source ms ∧ normalize path ++ pathText ms = pathText ns)

/-- `fileOrDirectoryPath.split("/").last` of a path with a name. -/
def lastName (path : Text) : Text := (split path).getLast?.getD []

/-- When `compact` does what it is for, whatever the platform makes of the path as a pattern: the
path has a name, every directory can be listed, no pattern is refused where there is something to
compare, and the archived files that are not found in the source are those that are not there. -/
structure Compares (R : Regex) (userAccount : Option ℤ) (path : Text) (source archive : Node) :
    Prop where
  hasName : HasName path
  sourceReadable : Readable source
  archiveReadable : Readable archive
  sourceAccepted : Accepts R path ⟨normalize path, source⟩
  archiveAccepted : Accepts R (archiveName (lastName path))
    ⟨normalize (backupDir userAccount ++ archiveName (lastName path)), archive⟩
  found : ∀ ns, ¬ IsMetadata path ns → Has archive ns .file → ((∃ c, Has source ns c) ↔
    ¬ Deleted R path (lastName path) ⟨normalize path, source⟩
      ⟨normalize (backupDir userAccount ++ archiveName (lastName path)), archive⟩ ns)

/-- The same for a path without special characters: the path has a name, no doubled and no trailing
slashes, every directory can be listed, and no file of the archive clashes with a directory; or
there is nothing to keep. -/
structure Fits (path : Text) (source archive : Node) : Prop where
  hasName : HasName path
  sourceReadable : Readable source
  archiveReadable : Readable archive
  clean : Clean path → NoClash path source archive
  unclean : ¬ Clean path → NothingToKeep path source archive

/-- Only the directories in the root are not listed. -/
theorem noClash_iff {path : Text} {source : Node} {as : List (Name × Node)} :
    NoClash path source (.dir as) ↔
    ∀ ns, ¬ IsMetadata path ns → Has (.dir as) ns .file → ((∃ c, Has source ns c) ↔
        Listed source ns) := by
  have hone : ∀ n, Listed source [n] ↔ Has source [n] .file := by
    intro n
    simp [Listed]
  constructor
  · intro h ns hmeta hfile
    rcases ns with _ | ⟨n, _ | ⟨m, ns⟩⟩
    · cases has_nil.mp hfile
    · rw [hone]
      exact ⟨h n hmeta hfile, fun hn => ⟨_, hn⟩⟩
    · simp [Listed]
  · intro h n hmeta hfile hn
    exact (hone n).mp ((h [n] hmeta hfile).mp hn)

theorem isMetadata_iff {path name : Text} (h : (split path).getLast? = some name) (ns : List Name) :
    IsMetadata path ns ↔ pathText ns = symlinkMetadataFile name := by
  simp [IsMetadata, h]

theorem getLast?_lastName {path : Text} (h : HasName path) :
    (split path).getLast? = some (lastName path) ∧
    '/' ∉ lastName path ∧ ∀ c ∈ lastName path, c ∈ path := by
  obtain ⟨name, hlast, hrest⟩ := getLast?_split h
  rw [lastName, hlast]
  exact ⟨rfl, hrest⟩

/-- **`compact` leaves exactly the files that are still in the source if and only if** it compares
the files as it should. -/
theorem compacts_iff_compares (R : Regex) (S : Schedule) (userAccount : Option ℤ) (path : Text)
    (es as : List (Name × Node)) :
    Compacts R S userAccount path (.dir es) (.dir as) ↔
      Compares R userAccount path (.dir es) (.dir as) := by
  by_cases hname : HasName path
  · obtain ⟨hlast, -, -⟩ := getLast?_lastName hname
    have hsource : TFile.listFiles ⟨normalize path, .dir es⟩ = some _ := rfl
    have harchive : TFile.listFiles
        ⟨normalize (backupDir userAccount ++ archiveName (lastName path)), .dir as⟩ = some _ := rfl
    by_cases hread : Readable (.dir es) ∧ Readable (.dir as)
    · rcases compact_files R S userAccount hlast hsource rfl harchive rfl hread.1 hread.2 with
        ⟨haccept, final, hcompact, hfiles⟩ | ⟨hno, e, he⟩
      · constructor
        · rintro ⟨final', hcompact', h⟩
          obtain rfl := Except.ok.inj (hcompact.symm.trans hcompact')
          refine ⟨hname, hread.1, hread.2, haccept.1, haccept.2, fun ns hmeta hfile => ?_⟩
          exact (and_congr_right_iff.mp ((hfiles ns).symm.trans (h ns hmeta)) hfile).symm
        · intro h
          refine ⟨final, hcompact, fun ns hmeta => (hfiles ns).trans ?_⟩
          exact and_congr_right fun hfile => (h.found ns hmeta hfile).symm
      · refine iff_of_false ?_ fun h => hno ⟨h.sourceAccepted, h.archiveAccepted⟩
        rintro ⟨final, hcompact, -⟩
        cases he.symm.trans hcompact
    · obtain ⟨e, he⟩ := compact_error R S userAccount hlast hsource rfl harchive rfl hread
      refine iff_of_false ?_ fun h => hread ⟨h.sourceReadable, h.archiveReadable⟩
      rintro ⟨final, hcompact, -⟩
      cases he.symm.trans hcompact
  · refine iff_of_false ?_ fun h => hname h.hasName
    rintro ⟨final, hcompact, -⟩
    unfold compact at hcompact
    rw [split_eq_nil hname] at hcompact
    cases hcompact

/-- A file is kept if its path is listed, behind a clean path,
or if it repeats the path of the source. -/
theorem not_deleted_iff (R : Regex) (userAccount : Option ℤ) {path : Text} {source : Node}
    {as : List (Name × Node)} (hpath : Simple path) (hname : HasName path) {ns : List Name}
    (hmeta : ¬ IsMetadata path ns) (hfile : Has (.dir as) ns .file) :
    ¬ Deleted R path (lastName path) ⟨normalize path, source⟩
        ⟨normalize (backupDir userAccount ++ archiveName (lastName path)), .dir as⟩ ns ↔
      (Clean path ∧ Listed source ns) ∨
        (Doubled path ∧ ∃ ms, Listed source ms ∧ normalize path ++ pathText ms = pathText ns) := by
  obtain ⟨hlast, hslash, hchars⟩ := getLast?_lastName hname
  have harchive : TFile.listFiles
      ⟨normalize (backupDir userAccount ++ archiveName (lastName path)), .dir as⟩ = some _ := rfl
  rw [isMetadata_iff hlast] at hmeta
  rw [deleted_simple R userAccount hpath hslash hchars rfl rfl (listed_of_file harchive hfile),
    not_and_or, not_not, not_not, or_iff_right hmeta, exists_listed_iff hname]

/-- Without special characters the patterns are accepted,
and they cut as the slashes of the path say. -/
theorem compares_iff (R : Regex) (userAccount : Option ℤ) {path : Text} (hpath : Simple path)
    (source : Node) (as : List (Name × Node)) : Compares R userAccount path source (.dir as) ↔
    Fits path source (.dir as) := by
  constructor
  · rintro ⟨hname, hsrc, harc, -, -, hfound⟩
    refine ⟨hname, hsrc, harc, fun hclean => noClash_iff.mpr fun ns hmeta hfile => ?_,
      fun hclean ns hmeta hfile => ?_⟩
    · rw [hfound ns hmeta hfile, not_deleted_iff R userAccount hpath hname hmeta hfile]
      simp [hclean, hclean.1]
    · rw [hfound ns hmeta hfile, not_deleted_iff R userAccount hpath hname hmeta hfile]
      simp [hclean]
  · rintro ⟨hname, hsrc, harc, hclean, hunclean⟩
    obtain ⟨-, -, hchars⟩ := getLast?_lastName hname
    refine ⟨hname, hsrc, harc, accepts_simple R hpath _,
      accepts_simple R (simple_archiveName hpath hchars) _, fun ns hmeta hfile => ?_⟩
    rw [not_deleted_iff R userAccount hpath hname hmeta hfile]
    by_cases h : Clean path
    · rw [noClash_iff.mp (hclean h) ns hmeta hfile]
      simp [h, h.1]
    · rw [hunclean h ns hmeta hfile]
      simp [h]

/-- A platform that knows patterns without special characters only. -/
def simpleRegex : Regex where
  replaceFirst pattern s :=
    if "^.*?".toList <+: pattern ∧ Simple (pattern.drop 4) then some (cutFirst (pattern.drop 4) s)
      else none
  simple p s h := by
    have hlength : "^.*?".toList.length = 4 := by decide
    have hdrop : ("^.*?".toList ++ p).drop 4 = p := by rw [← hlength, List.drop_left]
    rw [hdrop, if_pos ⟨List.prefix_append _ p, h⟩]

def inOrder : Schedule := ⟨id, fun l => List.Perm.refl l⟩

def aTxt : Name := ⟨"a.txt".toList, by decide, by decide⟩

def bTxt : Name := ⟨"b.txt".toList, by decide, by decide⟩

theorem readable_files {es : List (Name × Node)} (h : ∀ e ∈ es, e.2 = .file) :
    Readable (.dir es) := by
  intro ns hns
  rcases ns with _ | ⟨n, ns⟩
  · cases has_nil.mp hns
  · obtain ⟨t, hes, ht⟩ := has_dir.mp hns
    obtain rfl : t = .file := h _ hes
    cases ht

theorem not_listed_empty (ns : List Name) : ¬ Listed (.dir []) ns := by
  have hno : ∀ c, ¬ (1 ≤ ns.length ∧ Has (.dir []) ns c) := by
    rintro c ⟨hlen, h⟩
    rcases ns with _ | ⟨n, ns⟩
    · cases hlen
    · obtain ⟨t, hmem, -⟩ := has_dir.mp h
      cases hmem
  rintro (⟨hlen, h⟩ | ⟨hlen, c, h⟩)
  · exact hno _ ⟨hlen.ge, h⟩
  · exact hno c ⟨by omega, h⟩

end ServeD.Utils.Archiver
