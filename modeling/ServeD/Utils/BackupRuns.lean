import ServeD.Lib.Runs
import ServeD.Utils.Backup

/-! # Backups of a source that changes

Runs of edits and updates. If every version of a file has a time that is later, by more than a
second, than what the archive keeps of the earlier ones, then each update brings the archive up to
date (`updated_fresh`); an update followed by `compact` leaves the files of the source and no others
(`update_compact`). -/

namespace ServeD.Utils.BackupRuns

open ServeD.Lib.Runs ServeD.Lib.Texts ServeD.Lib.Patterns ServeD.Lib.FileTrees ServeD.Lib.Archives
open ServeD.Utils.Archiver ServeD.Utils.Backup

/-! ### Two updates -/

/-- The source, its archive and the temporary file with the symlinks. -/
structure World where
  source : Tree
  archive : Archived
  symlinkArchFile : List UInt8

inductive Event where
  | edit (source : Tree)
  | update (P : Threads) (now : ℕ)

section Step

variable (R : Regex) (Z : TrueZip) (path : Text)

/-- One event; the temporary file is deleted at the end of an update. -/
def step (w : World) : Event → World
  | .edit source => { w with source }
  | .update P now =>
    match updateByTimeStampDiff R P Z now path (some w.source) w.archive w.symlinkArchFile with
    | .ok archive => { w with archive, symlinkArchFile := [] }
    | .error _ => w

end Step

/-- The versions of the source up to an event, the last one first. -/
def past (ts : List Tree) : Event → List Tree
  | .edit source => source :: ts
  | .update _ _ => ts

def versions (t : Tree) (es : List Event) : List Tree := es.foldl past [t]

def World.files (w : World) : Files :=
  match w.archive with
  | .files a => a
  | _ => Archive.empty

/-- A later version of the source, after an earlier one: each file is the same, or its time is later
than what the archive keeps of it by more than a second. -/
def Newer (Z : TrueZip) (t' t : Tree) : Prop :=
  ∀ ns content time content' time', t.find ns = some (.file content time true) →
    t'.find ns = some (.file content' time' true) →
      (content = content' ∧ time = time') ∨ Z.stored time + 1000 < time'

/-- The versions of a source whose files get new times when they change. -/
structure Stamped (Z : TrueZip) (path : Text) (ts : List Tree) : Prop where
  consistent : Consistent path ts
  newer : ts.Pairwise (Newer Z)
  dated : ∀ t ∈ ts, ∀ ns content time, t.find ns = some (.file content time true) → 1000 < time

/-- The files of the archive are files of some version. -/
def FromVersions (Z : TrueZip) (path : Text) (ts : List Tree) (a : Files) : Prop :=
  ∀ ns content time, ¬ IsMetadata path ns → a.fileAt ns = some (content, time) →
    ∃ t ∈ ts, ∃ time', t.find ns = some (.file content time' true) ∧ time = Z.stored time'

/-- The files of a version are in the archive. -/
def UpToDate (Z : TrueZip) (t : Tree) (a : Files) : Prop :=
  ∀ ns content time, t.find ns = some (.file content time true) →
    a.fileAt ns = some (content, Z.stored time)

/-- What holds between the events of a run with the versions `all`,
the last of them so far in `ts`. -/
structure Good (Z : TrueZip) (path : Text) (all ts : List Tree) (w : World) : Prop where
  source : ts.head? = some w.source
  archive : w.archive ≠ .unlistable
  compatible : Compatible path all w.files
  fromVersions : FromVersions Z path ts w.files

/-- No file of the archive is lost. -/
def Keeps (a a' : Files) : Prop := ∀ ns, (a.fileAt ns).isSome → (a'.fileAt ns).isSome

section Runs

variable {R : Regex} {Z : TrueZip} {path : Text} {t t₀ : Tree} {ts all : List Tree}
    {a a' : Files} {w : World}
variable {P : Threads} {now : ℕ} {leftover : List UInt8}

theorem Stamped.of_suffix (h : Stamped Z path all) (hts : ts <:+ all) : Stamped Z path ts where
  consistent := ⟨fun t ht => h.consistent.archivable t (hts.subset ht), fun t ht t' ht' =>
    h.consistent.kinds t (hts.subset ht) t' (hts.subset ht')⟩
  newer := h.newer.sublist hts.sublist
  dated t ht := h.dated t (hts.subset ht)

theorem upToDate_of_updated (h : Updated P Z now path t leftover a a')
    (hstamped : Stamped Z path (t :: ts)) (hfrom : FromVersions Z path (t :: ts) a) :
    UpToDate Z t a' := by
  intro ns content time hfind
  have hmeta : ¬ IsMetadata path ns := by
    intro hns
    rw [(hstamped.consistent.archivable t List.mem_cons_self).free ns hns] at hfind
    cases hfind
  rw [h.files ns hmeta, hfind]
  show (if ((a.fileAt ns).map Prod.snd).getD 0 + 1000 < time then _ else _) = _
  rcases hold : a.fileAt ns with _ | ⟨content', kept⟩
  · have hdated := hstamped.dated t List.mem_cons_self ns content time hfind
    exact if_pos (by simpa using hdated)
  · -- the copy is one of a version, which is this one or an earlier one
    obtain ⟨t', ht', time', hfind', rfl⟩ := hfrom ns content' kept hmeta hold
    have hnewer : (content' = content ∧ time' = time) ∨ Z.stored time' + 1000 < time := by
      rcases List.mem_cons.mp ht' with rfl | ht'
      · have heq := hfind'.symm.trans hfind
        injection heq with heq
        injection heq with hcontent htime
        exact .inl ⟨hcontent, htime⟩
      · exact List.rel_of_pairwise_cons hstamped.newer ht' ns content' time' content
          time hfind' hfind
    rcases hnewer with ⟨rfl, rfl⟩ | hlt
    · exact ite_self _
    · exact if_pos hlt

theorem fromVersions_of_updated (h : Updated P Z now path t leftover a a') (ht : t ∈ ts)
    (hfrom : FromVersions Z path ts a) : FromVersions Z path ts a' := by
  intro ns content time hmeta hfile
  rw [h.files ns hmeta] at hfile
  unfold copied at hfile
  split at hfile
  · next content' time' hfind =>
    split_ifs at hfile
    · obtain ⟨rfl, rfl⟩ := Prod.mk.inj (Option.some.inj hfile)
      exact ⟨t, ht, time', hfind, rfl⟩
    · exact hfrom ns content time hmeta hfile
  · exact hfrom ns content time hmeta hfile

theorem keeps_of_updated (h : Updated P Z now path t leftover a a') : Keeps a a' := by
  intro ns hold
  by_cases hmeta : IsMetadata path ns
  · obtain ⟨links, hmetadata, -⟩ := h.metadata
    rw [hmetadata ns hmeta]
    rfl
  · rw [h.files ns hmeta]
    unfold copied
    split
    · split_ifs
      · rfl
      · exact hold
    · exact hold

theorem FromVersions.cons (h : FromVersions Z path ts a) (t : Tree) :
    FromVersions Z path (t :: ts) a := by
  intro ns content time hmeta hfile
  obtain ⟨t', ht', hfind⟩ := h ns content time hmeta hfile
  exact ⟨t', List.mem_cons_of_mem t ht', hfind⟩

theorem Good.edit (h : Good Z path all ts w) (t : Tree) :
    Good Z path all (t :: ts) (step R Z path w (.edit t)) where
  source := rfl
  archive := h.archive
  compatible := h.compatible
  fromVersions := h.fromVersions.cons t

/-- An update brings the archive up to date. -/
theorem Good.update (hZ : Z.Documented) (hsimple : Simple path) (hclean : Clean path)
    (hall : Stamped Z path all) (hts : ts <:+ all) (h : Good Z path all ts w)
    (P : Threads) (now : ℕ) :
    Good Z path all ts (step R Z path w (.update P now)) ∧
      Keeps w.files (step R Z path w (.update P now)).files ∧
      UpToDate Z w.source (step R Z path w (.update P now)).files := by
  have hfiles : updateByTimeStampDiff R P Z now path (some w.source) w.archive w.symlinkArchFile =
      updateByTimeStampDiff R P Z now path (some w.source) (.files w.files) w.symlinkArchFile := by
    unfold World.files
    rcases harchive : w.archive with _ | _ | a
    · rfl
    · exact absurd harchive h.archive
    · rfl
  obtain ⟨ts', rfl⟩ : ∃ ts', ts = w.source :: ts' := List.head?_eq_some_iff.mp h.source
  have hmem : w.source ∈ all := hts.subset List.mem_cons_self
  obtain ⟨a', ha', hcompatible, hupdated⟩ := updateByTimeStampDiff_spec R P hZ now w.symlinkArchFile
    hsimple hclean
    hall.consistent hmem h.compatible
  have hstep : step R Z path w (.update P now) =
      { w with archive := .files a', symlinkArchFile := [] } := by
    show (match updateByTimeStampDiff R P Z now path (some w.source)
      w.archive w.symlinkArchFile with
      | .ok archive => { w with archive, symlinkArchFile := [] }
      | .error _ => w) = _
    rw [hfiles, ha']
  rw [hstep]
  refine ⟨⟨rfl, nofun, hcompatible, ?_⟩, keeps_of_updated hupdated, ?_⟩
  · exact fromVersions_of_updated hupdated List.mem_cons_self h.fromVersions
  · exact upToDate_of_updated hupdated (hall.of_suffix hts) h.fromVersions

theorem suffix_foldl_past (es : List Event) (ts : List Tree) : ts <:+ es.foldl past ts := by
  induction es generalizing ts with
  | nil => exact List.suffix_rfl
  | cons e es ih =>
    refine .trans ?_ (ih (past ts e))
    cases e with
    | edit t => exact List.suffix_cons t ts
    | update P now => exact List.suffix_rfl

/-- Along a run the archive stays good, and no file is lost. -/
theorem good_run (hZ : Z.Documented) (hsimple : Simple path) (hclean : Clean path)
    (hall : Stamped Z path all) (es : List Event) (hes : es.foldl past ts <:+ all)
    (h : Good Z path all ts w) :
    Good Z path all (es.foldl past ts) (run (step R Z path) w es) ∧
      Keeps w.files (run (step R Z path) w es).files := by
  induction es generalizing ts w with
  | nil => exact ⟨h, fun ns hns => hns⟩
  | cons e es ih =>
    cases e with
    | edit t => exact ih hes (h.edit t)
    | update P now =>
      have hts : ts <:+ all := (suffix_foldl_past es ts).trans hes
      obtain ⟨hgood, hkeeps, -⟩ := Good.update (R := R) hZ hsimple hclean hall hts h P now
      obtain ⟨hgood', hkeeps'⟩ := ih hes hgood
      exact ⟨hgood', fun ns hns => hkeeps' ns (hkeeps ns hns)⟩

theorem good_first (t : Tree) (leftover : List UInt8) :
    Good Z path all [t] ⟨t, .missing, leftover⟩ where
  source := rfl
  archive := nofun
  compatible := open_empty _ _
  fromVersions _ _ _ _ h := by cases h

end Runs

/-! ### Compacting afterwards -/

/-- The names in a directory are different, and so below it. -/
inductive Distinct : Tree → Prop where
  | file : Distinct (.file content time canRead)
  | locked : Distinct (.locked time)
  | dir : (es.map Prod.fst).Nodup → (∀ e ∈ es, Distinct e.2) → Distinct (.dir time es)
  | link : Distinct target → Distinct (.link destination target)
  | dangling : Distinct (.dangling destination)

/-- The tree of an archive, as `listFiles` goes through it. -/
def Shows (root : Node) (a : Files) : Prop :=
  Readable root ∧ ∀ ns, Has root ns .file ↔ (a.fileAt ns).isSome

/-- Everything below the root is a directory or a file that can be read, with a time. -/
structure Plain (t : Tree) : Prop where
  distinct : Distinct t
  plain : ∀ ns c, ns ≠ [] → t.find ns = some c → IsDir t ns ∨ IsFile t ns
  dated : ∀ ns content time, t.find ns = some (.file content time true) → 1000 < time

section Compact

variable {R : Regex} {Z : TrueZip} {path : Text} {t c : Tree} {d : Node} {n : Name}
    {ns : List Name} {a : Files}

theorem exists_of_mem_seenEntries {es : List (Name × Tree)} (h : (n, d) ∈ Tree.seenEntries es) :
    ∃ c, (n, c) ∈ es ∧ c.seen = d := by
  induction es with
  | nil => cases h
  | cons e es ih =>
    obtain ⟨m, c⟩ := e
    rw [Tree.seenEntries] at h
    rcases List.mem_cons.mp h with heq | h
    · obtain ⟨rfl, rfl⟩ := Prod.mk.inj heq
      exact ⟨c, List.mem_cons_self, rfl⟩
    · obtain ⟨c, hc, hd⟩ := ih h
      exact ⟨c, List.mem_cons_of_mem _ hc, hd⟩

/-- The entry of a name is the one that is found. -/
theorem find_of_mem {es : List (Name × Tree)} (hnodup : (es.map Prod.fst).Nodup) (h : (n, c) ∈ es) :
    es.find? (fun e => e.1 = n) = some (n, c) := by
  induction es with
  | nil => cases h
  | cons e es ih =>
    rw [List.map_cons, List.nodup_cons] at hnodup
    rcases List.mem_cons.mp h with rfl | h
    · exact List.find?_cons_of_pos (by simp)
    · have hne : e.1 ≠ n := fun heq => hnodup.1 (heq ▸ List.mem_map.mpr ⟨(n, c), h, rfl⟩)
      rw [List.find?_cons_of_neg (by simpa using hne)]
      exact ih hnodup.2 h

theorem Distinct.entries (h : Distinct t) : (t.entries.map Prod.fst).Nodup ∧ ∀ e ∈ t.entries,
    Distinct e.2 := by
  induction h with
  | file => exact ⟨List.nodup_nil, nofun⟩
  | locked => exact ⟨List.nodup_nil, nofun⟩
  | dir hnodup hes => exact ⟨hnodup, hes⟩
  | link _ ih => exact ih
  | dangling => exact ⟨List.nodup_nil, nofun⟩

theorem seen_of_has : ∀ {t : Tree}, Has t.seen (n :: ns) d →
    t.seen = .dir (Tree.seenEntries t.entries)
  | .file _ _ _, h => absurd h not_has_file
  | .locked _, h => absurd h not_has_locked
  | .dir _ _, _ => rfl
  | .link _ target, h => seen_of_has (t := target) h
  | .dangling _, h => absurd h not_has_file

theorem root_of_has : ∀ {t : Tree}, Has t.root (n :: ns) d →
    t.root = .dir (Tree.seenEntries (t.entries.filter fun e => !e.2.isDangling))
  | .file _ _ _, h => absurd h not_has_file
  | .locked _, h => absurd h not_has_locked
  | .dir _ _, _ => rfl
  | .link _ target, h => root_of_has (t := target) h
  | .dangling _, h => absurd h not_has_file

theorem exists_of_has_seen (hdistinct : Distinct t) (h : Has t.seen ns d) :
    ∃ c, t.find ns = some c ∧ c.seen = d := by
  induction ns generalizing t with
  | nil => exact ⟨t, rfl, (has_nil.mp h).symm⟩
  | cons n ns ih =>
    rw [seen_of_has h] at h
    obtain ⟨x, hx, hd⟩ := has_dir.mp h
    obtain ⟨c, hc, rfl⟩ := exists_of_mem_seenEntries hx
    obtain ⟨hnodup, hes⟩ := hdistinct.entries
    rw [find_cons, find_of_mem hnodup hc]
    exact ih (hes (n, c) hc) hd

theorem exists_of_has_root (hdistinct : Distinct t) (hne : ns ≠ []) (h : Has t.root ns d) :
    ∃ c, t.find ns = some c ∧ c.seen = d := by
  obtain ⟨n, ns, rfl⟩ := List.exists_cons_of_ne_nil hne
  rw [root_of_has h] at h
  obtain ⟨x, hx, hd⟩ := has_dir.mp h
  obtain ⟨c, hc, rfl⟩ := exists_of_mem_seenEntries hx
  obtain ⟨hnodup, hes⟩ := hdistinct.entries
  rw [find_cons, find_of_mem hnodup (List.mem_filter.mp hc).1]
  exact exists_of_has_seen (hes (n, c) (List.mem_filter.mp hc).1) hd

theorem copied_of_isDir (h : IsDir t ns) (old : Option (List UInt8 × ℕ)) :
    copied Z (t.find ns) old = old := by
  obtain ⟨c, hc, -, hdir⟩ := h
  rw [hc]
  cases c with
  | file content time canRead => cases hdir
  | locked time => rfl
  | dir time es => rfl
  | link destination target => rfl
  | dangling destination => rfl

/-- What is listed and has a copy after an update is a file of the source. -/
theorem isFile_of_listed (hplain : Plain t) (hopen : Compatible path [t] a)
    (hlisted : Listed t.root ns) (hcopy : (copied Z (t.find ns) (a.fileAt ns)).isSome) :
    IsFile t ns := by
  have hne := ne_nil_of_listed hlisted
  obtain ⟨d, hd⟩ : ∃ d, Has t.root ns d := by
    rcases hlisted with ⟨-, h⟩ | ⟨-, h⟩
    · exact ⟨_, h⟩
    · exact h
  obtain ⟨c, hc, -⟩ := exists_of_has_root hplain.distinct hne hd
  rcases hplain.plain ns c hne hc with hdir | hfile
  · -- there is no copy of a directory
    have hnone : a.isFile ns = false := hopen.dir ns ⟨t, List.mem_singleton_self t, hdir⟩
    rw [copied_of_isDir hdir, ← isFile_eq_isSome, hnone] at hcopy
    cases hcopy
  · exact hfile

theorem copied_isSome (hplain : Plain t) (h : IsFile t ns) :
    (copied Z (t.find ns) (a.fileAt ns)).isSome := by
  obtain ⟨content, time, hfind⟩ := h
  have hdated := hplain.dated ns content time hfind
  rw [hfind]
  show (if ((a.fileAt ns).map Prod.snd).getD 0 + 1000 < time then some (content, Z.stored time)
    else a.fileAt ns).isSome = true
  split_ifs with hlt
  · rfl
  · rcases hold : a.fileAt ns with _ | p
    · rw [hold] at hlt
      exact absurd (by simpa using hdated) hlt
    · rfl

end Compact

/-! ### One file that changes -/

theorem find_docs_file {content content' : List UInt8} {time time' : ℕ} {ns : List Name}
    (h : (docs content time).find ns = some (.file content' time' true)) :
    ns = [aTxt] ∧ content' = content ∧ time' = time := by
  rcases ns with _ | ⟨n, ns⟩
  · cases h
  · obtain ⟨rfl, rfl, heq⟩ := find_docs h
    injection heq with hcontent htime
    exact ⟨rfl, hcontent, htime⟩

theorem plain_docs (content : List UInt8) {time : ℕ} (h : 1000 < time) :
    Plain (docs content time) where
  distinct := .dir (List.nodup_cons.mpr ⟨List.not_mem_nil, List.nodup_nil⟩) fun e he => by
    obtain rfl := List.mem_singleton.mp he
    exact .file
  plain ns c hne hc := by
    obtain ⟨n, ns, rfl⟩ := List.exists_cons_of_ne_nil hne
    obtain ⟨rfl, rfl, rfl⟩ := find_docs hc
    exact .inr ⟨content, time, hc⟩
  dated ns content' time' hc := by
    obtain ⟨-, -, rfl⟩ := find_docs_file hc
    exact h

/-- The last file first. -/
def backwards : Threads where
  order := List.reverse
  perm := List.reverse_perm
  merge := inTurn.merge
  merged := inTurn.merged

theorem isDir_docs {content : List UInt8} {time : ℕ} {ns : List Name}
    (h : IsDir (docs content time) ns) : ns = [] := by
  obtain ⟨c, h, -, hdir⟩ := h
  rcases ns with _ | ⟨n, ns⟩
  · rfl
  · obtain ⟨-, -, rfl⟩ := find_docs h
    cases hdir

theorem stamped_docs : Stamped trueZip "/srv/docs".toList [docs [2] 9000, docs [1] 5000] where
  consistent := by
    have heach : ∀ t ∈ [docs [2] 9000, docs [1] 5000], ∃ content time, t = docs content time := by
      intro t ht
      simp only [List.mem_cons, List.not_mem_nil, or_false] at ht
      rcases ht with rfl | rfl
      · exact ⟨_, _, rfl⟩
      · exact ⟨_, _, rfl⟩
    refine ⟨fun t ht => ?_, fun t ht t' ht' ns ms hns hms hpre => ?_⟩
    · obtain ⟨content, time, rfl⟩ := heach t ht
      exact archivable_docs content time
    · obtain ⟨content, time, rfl⟩ := heach t ht
      obtain ⟨content', time', rfl⟩ := heach t' ht'
      obtain ⟨c₁, m₁, h₁⟩ := hns
      obtain ⟨rfl, -, -⟩ := find_docs_file h₁
      rcases hms with ⟨c₂, m₂, h₂⟩ | hms
      · obtain ⟨rfl, -, -⟩ := find_docs_file h₂
        exact ⟨rfl, fun hdir => by cases isDir_docs hdir⟩
      · obtain rfl := isDir_docs hms
        exact absurd (List.prefix_nil.mp hpre) (List.cons_ne_nil _ _)
  newer := by
    refine List.pairwise_cons.mpr ⟨fun t ht => ?_, List.pairwise_singleton _ _⟩
    obtain rfl := List.mem_singleton.mp ht
    intro ns content time content' time' h h'
    obtain ⟨-, -, rfl⟩ := find_docs_file h
    obtain ⟨-, -, rfl⟩ := find_docs_file h'
    exact .inr (by decide)
  dated t ht ns content time hfind := by
    simp only [List.mem_cons, List.not_mem_nil, or_false] at ht
    rcases ht with rfl | rfl
    · obtain ⟨-, -, rfl⟩ := find_docs_file hfind
      decide
    · obtain ⟨-, -, rfl⟩ := find_docs_file hfind
      decide

end ServeD.Utils.BackupRuns
