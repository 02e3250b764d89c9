import ServeD.Utils.Archiver
import ServeD.Lib.Levels

/-! # Gathering directories

The order in which `gatherAllDirsRecursively` of `SvdArchiver.scala` goes through a forest of
directories. It takes the first directory of its list and puts the directories in it at the end
(`gather_step`), so that it walks through one level after the other, and it stops at the first one
that cannot be listed. -/

namespace ServeD.Utils.Gathering

open ServeD.Lib.FileTrees ServeD.Lib.Levels ServeD.Utils.Archiver

/-- The directories in a directory, in the order of `listFiles`. -/
def subDirs (f : TFile) : List TFile := f.children.filter TFile.isDirectory

theorem smaller_subDirs : Smaller subDirs fun f => sizeOf f.node := by
  intro f
  rcases h : f.listFiles with _ | l
  · have hsub : subDirs f = [] := by
      unfold subDirs TFile.children
      rw [h]
      rfl
    rw [hsub]
    have hpos : 0 < sizeOf f.node := by
      rcases f.node with _ | _ | es
      · rw [Node.file.sizeOf_spec]
        omega
      · rw [Node.locked.sizeOf_spec]
        omega
      · rw [Node.dir.sizeOf_spec]
        omega
    exact hpos
  · have hsub : subDirs f = l.filter TFile.isDirectory := by
      unfold subDirs TFile.children
      rw [h]
      rfl
    have hle := weight_filter_le TFile.isDirectory l
    have hlt := weight_listFiles h
    rw [hsub]
    show weight (l.filter TFile.isDirectory) < sizeOf f.node
    omega

/-- The directories of a tree: a directory, and then those of each directory in it. -/
noncomputable def allDirs : TFile → List TFile := preorder smaller_subDirs

section Gather

variable {f g : TFile} {q : List TFile}

theorem mem_subDirs : g ∈ subDirs f ↔
    ∃ es e, f.node = .dir es ∧ e ∈ es ∧ e.2.isDirectory = true ∧
      g = ⟨f.path ++ '/' :: e.1.text, e.2⟩ := by
  unfold subDirs
  rw [List.mem_filter, mem_children]
  constructor
  · rintro ⟨⟨es, e, hnode, he, rfl⟩, hdir⟩
    exact ⟨es, e, hnode, he, hdir, rfl⟩
  · rintro ⟨es, e, hnode, he, hdir, rfl⟩
    exact ⟨⟨es, e, hnode, he, rfl⟩, hdir⟩

/-- The directories of depth `k` are those with a path of `k` names. -/
theorem mem_level (hq : ∀ f ∈ q, f.isDirectory = true) (k : ℕ) : g ∈ level subDirs q k ↔
    ∃ f ∈ q, ∃ ns c, ns.length = k ∧ Has f.node ns c ∧ c.isDirectory = true ∧
      g = ⟨f.path ++ pathText ns, c⟩ := by
  induction k generalizing g with
  | zero =>
    constructor
    · intro hg
      refine ⟨g, hg, [], g.node, rfl, .here, hq g hg, ?_⟩
      rw [pathText, List.flatMap_nil, List.append_nil]
    · rintro ⟨f, hf, ns, c, hns, hc, -, rfl⟩
      obtain rfl := List.length_eq_zero_iff.mp hns
      obtain rfl := has_nil.mp hc
      rw [pathText, List.flatMap_nil, List.append_nil]
      exact hf
  | succ k ih =>
    show g ∈ (level subDirs q k).flatMap subDirs ↔ _
    rw [List.mem_flatMap]
    constructor
    · rintro ⟨h, hh, hg⟩
      obtain ⟨f, hf, ns, c, hns, hc, -, rfl⟩ := ih.mp hh
      obtain ⟨es, ⟨n, t⟩, rfl, he, hdir, rfl⟩ := mem_subDirs.mp hg
      refine ⟨f, hf, ns ++ [n], t, ?_, has_concat.mpr ⟨es, hc, he⟩, hdir, ?_⟩
      · rw [List.length_append, List.length_singleton, hns]
      · simp [pathText]
    · rintro ⟨f, hf, ns, c, hns, hc, hdir, rfl⟩
      -- the last name is that of a directory in one of the level before
      rcases List.eq_nil_or_concat' ns with rfl | ⟨ms, n, rfl⟩
      · cases hns
      · rw [List.length_append, List.length_singleton] at hns
        obtain ⟨es, hes, he⟩ := has_concat.mp hc
        refine ⟨_, ih.mpr ⟨f, hf, ms, .dir es, Nat.succ.inj hns, hes, rfl, rfl⟩, ?_⟩
        refine mem_subDirs.mpr ⟨es, (n, c), rfl, he, hdir, ?_⟩
        simp [pathText]

theorem gather_walk (f : TFile) (q acc : List TFile) (h : f.listFiles ≠ none) :
    gatherAllDirsRecursively (f :: q) acc = gatherAllDirsRecursively (q ++ subDirs f)
      (acc ++ [f]) := by
  obtain ⟨l, hl⟩ := Option.ne_none_iff_exists'.mp h
  rw [gather_step hl]
  unfold subDirs TFile.children
  rw [hl]
  rfl

/-- A directory that is met can be listed if the trees can be read. -/
theorem listFiles_of_readable (hq : ∀ f ∈ q, f.isDirectory = true)
    (hread : ∀ f ∈ q, Readable f.node) {k : ℕ} (hg : g ∈ level subDirs q k) :
    g.listFiles ≠ none := by
  obtain ⟨f, hf, ns, c, -, hc, hdir, rfl⟩ := (mem_level hq k).mp hg
  rcases c with _ | _ | es
  · cases hdir
  · exact absurd hc (hread f hf ns)
  · exact Option.some_ne_none _

/-- The only failure on directories is one that cannot be listed. -/
theorem gather_error (hq : ∀ f ∈ q, f.isDirectory = true) {acc : List TFile} {e : Failure}
    (h : gatherAllDirsRecursively q acc = .error e) : ∃ dir, e = invalidACL dir := by
  -- by the size of the trees that are still to be walked
  induction hw : weight q using Nat.strongRecOn generalizing q acc with
  | ind w ih =>
    rcases q with _ | ⟨dir, tail⟩
    · rw [gatherAllDirsRecursively] at h
      cases h
    · rcases hl : dir.listFiles with _ | l
      · rw [gather_locked hl (hq dir List.mem_cons_self)] at h
        exact ⟨dir, (Except.error.inj h).symm⟩
      · have hlt : weight (tail ++ l.filter TFile.isDirectory) < w := hw ▸ weight_step tail hl
        rw [gather_step hl] at h
        refine ih _ hlt (fun f hf => ?_) h rfl
        rcases List.mem_append.mp hf with hf | hf
        · exact hq f (List.mem_cons_of_mem dir hf)
        · exact (List.mem_filter.mp hf).2

theorem exists_locked_iff : (∃ f ∈ q, ∃ g, Below f g ∧ g.node = .locked) ↔
    ∃ f ∈ q, ¬ Readable f.node := by
  constructor
  · rintro ⟨f, hf, g, ⟨ns, c, hc, -, rfl⟩, hlocked⟩
    obtain rfl : c = .locked := hlocked
    exact ⟨f, hf, fun hread => hread ns hc⟩
  · rintro ⟨f, hf, hnot⟩
    unfold Readable at hnot
    push Not at hnot
    obtain ⟨ns, hns⟩ := hnot
    exact ⟨f, hf, ⟨f.path ++ pathText ns, .locked⟩, ⟨ns, .locked, hns, rfl, rfl⟩, rfl⟩

end Gather

/-- **All directories, level by level.** On a forest of directories the recursion ends. If each
directory can be listed, it returns one level after the other, in the order of `listFiles`, until
there are no more, and these are the directories of the trees, each once; the level `k` has those
with `k` names below a root. It fails with `SvdArchiveACLException` exactly if some directory of the
trees cannot be listed. -/
theorem gather_levels (rootDir : List TFile) (hdirs : ∀ f ∈ rootDir, f.isDirectory = true) :
    ((∀ f ∈ rootDir, Readable f.node) →
      ∃ n, level subDirs rootDir n = [] ∧
        gatherAllDirsRecursively rootDir [] = .ok (levels subDirs rootDir n) ∧
        (levels subDirs rootDir n).Perm (rootDir.flatMap allDirs)) ∧
    (∀ k g, g ∈ level subDirs rootDir k ↔ ∃ f ∈ rootDir, ∃ ns c, ns.length = k ∧ Has f.node ns c ∧
      c.isDirectory = true ∧ g = ⟨f.path ++ pathText ns, c⟩) ∧
    ((∃ message, gatherAllDirsRecursively rootDir [] = .error (.svdArchiveACLException message)) ↔
      ∃ f ∈ rootDir, ∃ g, Below f g ∧ g.node = .locked) := by
  refine ⟨fun hread => ?_, fun k g => mem_level hdirs k, ?_⟩
  · obtain ⟨n, hn⟩ := exists_level_nil smaller_subDirs rootDir
    refine ⟨n, hn, ?_, perm_levels smaller_subDirs hn⟩
    rw [walk_levels gather_walk n rootDir [] fun k _ g hg =>
      listFiles_of_readable hdirs hread hg, hn, List.nil_append, gatherAllDirsRecursively]
  · rw [exists_locked_iff]
    rcases gather_spec rootDir [] hdirs with ⟨hread, l, hok, -⟩ | ⟨hlocked, e, he⟩
    · refine iff_of_false ?_ ?_
      · rintro ⟨message, h⟩
        rw [hok] at h
        cases h
      · rintro ⟨f, hf, hnot⟩
        exact hnot (hread f hf)
    · obtain ⟨dir, rfl⟩ := gather_error hdirs he
      exact iff_of_true ⟨_, he⟩ hlocked

def docs : Name := ⟨"docs".toList, by decide, by decide⟩

def srv (docs' : Node) : TFile := ⟨"/srv".toList, .dir [(aTxt, .file), (docs, docs')]⟩

/-- Two roots, one with a directory in it that can be listed or not. -/
theorem gather_levels_srv :
    (∀ f ∈ [srv (.dir []), ⟨"/var".toList, .dir []⟩], f.isDirectory = true) ∧
      levels subDirs [srv (.dir []), ⟨"/var".toList, .dir []⟩] 2 =
        [srv (.dir []), ⟨"/var".toList, .dir []⟩, ⟨"/srv/docs".toList, .dir []⟩] ∧
      (∀ g, g ∈ level subDirs [srv (.dir []), ⟨"/var".toList, .dir []⟩] 1 ↔
        ∃ f ∈ [srv (.dir []), ⟨"/var".toList, .dir []⟩], ∃ ns c, ns.length = 1 ∧ Has f.node ns c ∧
          c.isDirectory = true ∧ g = ⟨f.path ++ pathText ns, c⟩) ∧
      ∃ message, gatherAllDirsRecursively [srv .locked] [] =
        .error (.svdArchiveACLException message) := by
  have hdirs : ∀ f ∈ [srv (.dir []), ⟨"/var".toList, .dir []⟩], f.isDirectory = true := by
    intro f hf
    simp only [List.mem_cons, List.not_mem_nil, or_false] at hf
    rcases hf with rfl | rfl
    · rfl
    · rfl
  have hlocked : ∀ f ∈ [srv .locked], f.isDirectory = true := by
    intro f hf
    rw [List.mem_singleton.mp hf]
    rfl
  have hbelow : Below (srv .locked) ⟨"/srv/docs".toList, .locked⟩ :=
    ⟨[docs], .locked, .enter (List.mem_cons_of_mem _ List.mem_cons_self) .here, rfl, rfl⟩
  exact ⟨hdirs, rfl, (gather_levels _ hdirs).2.1 1,
    (gather_levels _ hlocked).2.2.mpr ⟨_, List.mem_singleton_self _, _, hbelow, rfl⟩⟩

end ServeD.Utils.Gathering
