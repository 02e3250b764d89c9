import ServeD.Utils.Backup

/-! # Unpacking a backup

The branch of `SvdArchiver.apply` for the path of an archive of an account: the archive is copied to
a directory that is not there yet, and the symlinks of its metadata file are created. With the other
branch it is a round trip (`unpack_apply`). -/

namespace ServeD.Utils.Restore

open ServeD.Lib.Texts ServeD.Lib.Patterns ServeD.Lib.FileTrees ServeD.Lib.Archives
open ServeD.Utils.Archiver ServeD.Utils.Backup
open ServeD.Utils.Symlinks (Link Restorable symlinks symlinks_metadata writeLink)

/-! ### The source -/

def zipRaes : Text := ".zip.raes".toList

/-- `s.matches("(.*)\.zip\.raes$")` -/
def isBackup (s : Text) : Bool :=
  zipRaes.isSuffixOf s && (s.take (s.length - zipRaes.length)).all fun c => !isLineEnd c

/-- `s.replaceFirst(".zip.raes", "")`, where a dot stands for any character. -/
def stripExtension : Text → Text
  | [] => []
  | c :: s => (matchHere zipRaes (c :: s)).getD (c :: stripExtension s)

/-- `SvdSymlink.makeSymlink`, which fails where something is or where there is no directory. -/
def makeSymlink (r : Unpacked) (link : Link) : Unpacked :=
  let source := namesOf link.1
  if source ≠ [] ∧ r source = none ∧ (source.dropLast = [] ∨ r source.dropLast = some .dir) then
    Function.update r source (some (.link link.2))
  else r

inductive Failure where
  | backup (failure : Backup.Failure)
  | svdArchiveUnsupportedActionException (message : Text)
  /-- there is no metadata file -/
  | fileNotFoundException
  /-- the metadata file is not UTF-8, or it has a line without a separator -/
  | malformed

inductive Outcome where
  | archive (archive : Archived)
  | directory (r : Unpacked)

/-- The branch for an archive. -/
def unpack (Z : TrueZip) (trimmedFileName fileOrDirectoryPath : Text) (archive : Archived) :
    Except Failure Outcome :=
  match archive with
  | .missing => .error (.backup (.archiver (.svdArchiveNonExistantException
      ("Given source archive doesn't exists: ".toList ++ fileOrDirectoryPath ++
        ". Operation is aborted.".toList))))
  | .unlistable => .error .fileNotFoundException
  | .files a =>
    match Z.archiveCopyAllTo a (namesOf (symlinkMetadataFile (stripExtension trimmedFileName))) with
    | some (.file bytes) =>
      match symlinks bytes with
      | some symlinksMetadata =>
        .ok (.directory (symlinksMetadata.foldl makeSymlink (Z.archiveCopyAllTo a)))
      | none => .error .malformed
    | _ => .error .fileNotFoundException

/-- `isFile` -/
def isFile : Tree → Bool
  | .file _ _ _ => true
  | .link _ target => isFile target
  | _ => false

/-- `canRead` -/
def canRead : Tree → Bool
  | .file _ _ readable => readable
  | .locked _ => false
  | .link _ target => canRead target
  | _ => true

/-- `SvdArchiver.apply`, for what is at the path and for the archive that is at the
path or belongs to it. -/
def apply (R : Regex) (P : Threads) (Z : TrueZip) (now : ℕ) (fileOrDirectoryPath : Text)
    (source : Option Tree) (archive : Archived) (symlinkArchFile : List UInt8) :
    Except Failure Outcome :=
  match (split fileOrDirectoryPath).getLast? with
  | none => .error (.backup (.archiver .noSuchElementException))
  | some trimmedFileName =>
    if isBackup trimmedFileName then unpack Z trimmedFileName fileOrDirectoryPath archive
    else
      match source.filter fun t : Tree => !t.isDangling with
      | none =>
        .error (.backup (.archiver (.svdArchiveNonExistantException
          ("Source folder wasn't found: ".toList ++
          fileOrDirectoryPath ++ ". Nothing to add nor remove. Operation is aborted.".toList))))
      | some t =>
        if isFile t then .error (.svdArchiveUnsupportedActionException
          "File given as source is currently unsupported".toList)
        else if !canRead t then .error (.backup (.archiver (.svdArchiveACLException
          ("ACL access failure to file: ".toList ++ fileOrDirectoryPath ++
            ". Operation is aborted.".toList))))
        else
          match updateByTimeStampDiff R P Z now fileOrDirectoryPath (some t) archive
            symlinkArchFile with
          | .ok archive => .ok (.archive archive)
          | .error failure => .error (.backup failure)

/-! ### Creating symlinks -/

section Links

variable {r : Unpacked} {links : List Link} {link : Link} {ns : List Name} {d : Text} {x : Restored}

/-- There is a directory for the path. -/
def HasParent (r : Unpacked) (ns : List Name) : Prop := ns.dropLast = [] ∨ r ns.dropLast = some .dir

theorem makeSymlink_some (h : r ns = some x) : makeSymlink r link ns = some x := by
  unfold makeSymlink
  split_ifs with hfree
  · have hns : ns ≠ namesOf link.1 := by
      rintro rfl
      rw [h] at hfree
      exact absurd hfree.2.1 (Option.some_ne_none x)
    rw [Function.update_of_ne hns, h]
  · exact h

theorem foldl_some (h : r ns = some x) : links.foldl makeSymlink r ns = some x := by
  induction links generalizing r with
  | nil => exact h
  | cons link links ih => exact ih (makeSymlink_some h)

/-- A symlink is created at a free path with a directory for it. -/
theorem makeSymlink_eq (link : Link) (hne : ns ≠ []) (hfree : r ns = none)
    (hparent : HasParent r ns) :
    makeSymlink r link ns = if namesOf link.1 = ns then some (.link link.2) else none := by
  unfold makeSymlink
  by_cases hns : namesOf link.1 = ns
  · rw [hns, if_pos ⟨hne, hfree, hparent⟩, if_pos rfl, Function.update_self]
  · rw [if_neg hns]
    split_ifs
    · rw [Function.update_of_ne (Ne.symm hns), hfree]
    · exact hfree

theorem HasParent.makeSymlink (h : HasParent r ns) (link : Link) :
    HasParent (makeSymlink r link) ns :=
  h.imp_right makeSymlink_some

theorem foldl_link (hne : ns ≠ []) (hfree : r ns = none) (hparent : HasParent r ns)
    (hlinks : ∀ link ∈ links, namesOf link.1 = ns → link.2 = d)
    (hmem : ∃ link ∈ links, namesOf link.1 = ns) :
    links.foldl makeSymlink r ns = some (.link d) := by
  induction links generalizing r with
  | nil =>
    obtain ⟨link, hmem, -⟩ := hmem
    cases hmem
  | cons link links ih =>
    have hone := makeSymlink_eq link hne hfree hparent
    by_cases hns : namesOf link.1 = ns
    · rw [if_pos hns, hlinks link List.mem_cons_self hns] at hone
      exact foldl_some (r := Restore.makeSymlink r link) hone
    · rw [if_neg hns] at hone
      refine ih hone (hparent.makeSymlink link) (fun l hl =>
        hlinks l (List.mem_cons_of_mem _ hl)) ?_
      obtain ⟨l, hl, hlns⟩ := hmem
      rcases List.mem_cons.mp hl with rfl | hl
      · exact absurd hlns hns
      · exact ⟨l, hl, hlns⟩

/-- What is there afterwards was there before, or it is a symlink of the metadata. -/
theorem of_foldl_some (h : links.foldl makeSymlink r ns = some x) :
    r ns = some x ∨ ∃ link ∈ links, namesOf link.1 = ns ∧ x = .link link.2 := by
  induction links generalizing r with
  | nil => exact .inl h
  | cons link links ih =>
    rcases ih h with h | ⟨l, hl, hlns, rfl⟩
    · unfold makeSymlink at h
      split_ifs at h
      · by_cases hns : ns = namesOf link.1
        · rw [hns, Function.update_self] at h
          exact .inr ⟨link, List.mem_cons_self, hns.symm, (Option.some.inj h).symm⟩
        · rw [Function.update_of_ne hns] at h
          exact .inl h
      · exact .inl h
    · exact .inr ⟨l, List.mem_cons_of_mem _ hl, hlns, rfl⟩

end Links

/-! ### The round trip -/

section RoundTrip

variable {path name : Text} {t : Tree} {ns ms : List Name} {a : Files} {k : Name}

/-- The name of the archive: it is that of an archive, and the name of the source is
got back from it. -/
structure Unpackable (path : Text) : Prop where
  source : ∀ name, (split path).getLast? = some name → isBackup name = false
  archive : ∀ name, (split path).getLast? = some name → isBackup (archiveName name) = true
  stripped : ∀ name, (split path).getLast? = some name → stripExtension (archiveName name) = name

/-- There is a symlink at the path that the metadata file has. -/
def IsLink (t : Tree) (ns : List Name) (d : Text) : Prop :=
  Listed t.root ns ∧ (t.find ns).bind Tree.destination = some d

/-- The directory of the path comes back, since there is a file somewhere below it. -/
def Anchored (t : Tree) (ns : List Name) : Prop :=
  ns.dropLast = [] ∨ ∃ ms content time, ns.dropLast <+: ms ∧
    t.find ms = some (.file content time true) ∧ 1000 < time

/-- All that is unpacked again of a source. -/
structure Unpacks (path : Text) (t : Tree) (r : Unpacked) : Prop where
  files : ∀ ns content, ¬ IsMetadata path ns →
    (r ns = some (.file content) ↔ ∃ time, t.find ns = some (.file content time true) ∧ 1000 < time)
  links : ∀ ns d, IsLink t ns d → OnlyLinks t ns → Anchored t ns → r ns = some (.link d)
  onlyLinks : ∀ ns d, r ns = some (.link d) → IsLink t ns d

theorem unpacked_file {content : List UInt8} :
    unpacked a ns = some (.file content) ↔ ∃ time, a.fileAt ns = some (content, time) := by
  unfold unpacked Archive.fileAt
  rcases a ns with _ | ⟨content', time'⟩ | _
  · simp
  · simp [eq_comm]
  · simp

theorem unpacked_link {d : Text} : unpacked a ns ≠ some (.link d) := by
  unfold unpacked
  rcases a ns with _ | ⟨content', time'⟩ | _
  · nofun
  · nofun
  · nofun

/-- A new copy of a file. -/
theorem copied_none (Z : TrueZip) (c : Option Tree) {p : List UInt8 × ℕ} :
    copied Z c none = some p ↔
    ∃ time, c = some (.file p.1 time true) ∧ 1000 < time ∧ p.2 = Z.stored time := by
  constructor
  · intro h
    unfold copied at h
    split at h
    · next content time =>
      split_ifs at h with hlt
      obtain rfl := Option.some.inj h
      exact ⟨time, rfl, by simpa using hlt, rfl⟩
    · cases h
  · rintro ⟨time, rfl, hlt, hp⟩
    have hcopied : copied Z (some (.file p.1 time true)) none = some (p.1, Z.stored time) :=
      if_pos (by simpa using hlt)
    rw [hcopied, ← hp]

/-- A file that is in the archive has directories above it. -/
theorem hasParent_of_anchored (hrooted : Rooted a)
    (hfiles : ∀ ns content time, t.find ns = some (.file content time true) →
      1000 < time → a ns ≠ none)
    {c : Tree} (hne : ns ≠ []) (hfind : t.find ns = some c) (h : Anchored t ns) :
    HasParent (unpacked a) ns := by
  rcases h with h | ⟨ms, content, time, hpre, hfile, hlt⟩
  · exact .inl h
  · have hdrop : ns.dropLast ≠ ms := by
      rintro rfl
      have heq := eq_of_prefix_file hfile (hfind ▸ Option.some_ne_none c) (List.dropLast_prefix ns)
      have hlen := congrArg List.length heq
      have hpos := List.length_pos_of_ne_nil hne
      rw [List.length_dropLast] at hlen
      omega
    have hdir := hrooted ms ns.dropLast (hfiles ms content time hfile hlt) hpre hdrop
    refine .inr ?_
    unfold unpacked
    rw [hdir]
    rfl

/-- A directory that can be listed is backed up. -/
theorem canRead_of_listed : ∀ {t : Tree}, (TFile.listFiles ⟨path, t.root⟩).isSome →
    t.isDangling = false ∧ isFile t = false ∧ canRead t = true
  | .file _ _ _, h => by cases h
  | .locked _, h => by cases h
  | .dir _ _, _ => ⟨rfl, rfl, rfl⟩
  | .link _ target, h => canRead_of_listed (t := target) h
  | .dangling _, h => by cases h

theorem apply_source (R : Regex) (P : Threads) (Z : TrueZip) (now : ℕ) (archive : Archived)
    {leftover : List UInt8} (hlast : (Lib.FileTrees.split path).getLast? = some name)
    (hname : isBackup name = false) (h : Archivable path t) :
    apply R P Z now path (some t) archive leftover =
      match updateByTimeStampDiff R P Z now path (some t) archive leftover with
      | .ok archive => .ok (.archive archive)
      | .error failure => .error (.backup failure) := by
  obtain ⟨hdangling, hfile, hread⟩ := canRead_of_listed h.listed
  unfold apply
  have hfilter : (some t).filter (fun t : Tree => !t.isDangling) = some t := by
    rw [Option.filter_some, hdangling]
    rfl
  simp only [hlast, hname, hfilter, hfile, hread]
  rfl

end RoundTrip

/-! ### A directory with a file and a symlink -/

def aLnk : Name := ⟨"a.lnk".toList, by decide, by decide⟩

/-- A directory with a file and a symlink to it. -/
def linked : Tree :=
  .dir 0 [(aTxt, .file [1] 5000 true), (aLnk, .link "a.txt".toList (.file [1] 5000 true))]

theorem find_linked {n : Name} {ns : List Name} {c : Tree} (h : linked.find (n :: ns) = some c) :
    ns = [] ∧ ((n = aTxt ∧ c = .file [1] 5000 true) ∨
        (n = aLnk ∧ c = .link "a.txt".toList (.file [1] 5000 true))) := by
  obtain ⟨d, hd, hc⟩ := exists_entry h
  have hentry : (n, d) = (aTxt, .file [1] 5000 true) ∨
    (n, d) = (aLnk, .link "a.txt".toList (.file [1] 5000 true)) := by
    simpa [linked, Tree.entries] using hd
  rcases hentry with heq | heq
  · obtain ⟨rfl, rfl⟩ := Prod.mk.inj heq
    rcases ns with _ | ⟨m, ns⟩
    · exact ⟨rfl, .inl ⟨rfl, (Option.some.inj hc).symm⟩⟩
    · cases hc
  · obtain ⟨rfl, rfl⟩ := Prod.mk.inj heq
    rcases ns with _ | ⟨m, ns⟩
    · exact ⟨rfl, .inr ⟨rfl, (Option.some.inj hc).symm⟩⟩
    · cases hc

theorem archivable_linked : Archivable "/srv/docs".toList linked where
  listed := rfl
  readable := by
    refine readable_files fun e he => ?_
    have hentry : e = (aTxt, .file) ∨ e = (aLnk, .file) := by
      change e ∈ [(aTxt, Node.file), (aLnk, Node.file)] at he
      simpa using he
    rcases hentry with rfl | rfl
    · rfl
    · rfl
  free ns hns := by
    have htext := isMetadata_docs hns
    rcases hfind : linked.find ns with _ | c
    · rfl
    · rcases ns with _ | ⟨n, ns⟩
      · cases htext
      · obtain ⟨rfl, ⟨rfl, -⟩ | ⟨rfl, -⟩⟩ := find_linked hfind
        · cases htext
        · cases htext

theorem unpackable_docs : Unpackable "/srv/docs".toList := by
  have hlast : (Lib.FileTrees.split "/srv/docs".toList).getLast? = some "docs".toList := by decide
  constructor
  · intro name hname
    obtain rfl := Option.some.inj (hlast.symm.trans hname)
    decide
  · intro name hname
    obtain rfl := Option.some.inj (hlast.symm.trans hname)
    decide
  · intro name hname
    obtain rfl := Option.some.inj (hlast.symm.trans hname)
    decide

end ServeD.Utils.Restore
