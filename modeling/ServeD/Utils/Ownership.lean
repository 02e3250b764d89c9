import Mathlib.Data.Int.Notation
import ServeD.Lib.LinkTrees

/-! # Recursive chown and chmod

`recursiveListFilesFromPath`, `chown` and `chmod` of `SvdUtils.scala`, as `System.Chown` and
`System.Chmod` of `SvdSystemManager.scala` use them. A path is listed, and if `isDirectory` says so,
what `listFiles` finds in it; both follow links, and so do `chown` and `chmod` of the system.

* `recursiveListFilesFromPath` ends, whatever the links are: a path leads nowhere after too many of
  them;
* `staysInside_iff`: exactly the tree is listed, and only its files are changed, if and only if no
  link in the tree leads out of it or to a directory with entries;
* `requests_outside`: so it is with any sequence of requests to the system manager. -/

namespace ServeD.Utils.Ownership

open ServeD.Lib.LinkTrees

variable {N : Type} [DecidableEq N] (fs : FileSystem N)

/-! ### Files -/

/-- Where a path leads, with all links followed, and how many more a longer path may follow. -/
def stat (path : Path N) : Option (ℕ × List N) := fs.resolve fs.maxSymlinks [] path

/-- `File.exists`. -/
def fileExists (path : Path N) : Bool := (stat fs path).isSome

def nodeOf (path : Path N) : Option (Node N) := (stat fs path).bind fun r => fs.at? r.2

/-- `File.isDirectory`. -/
def isDirectory (path : Path N) : Bool := (nodeOf fs path).any Node.isDirectory

/-- `File.listFiles`, `none` for `null`. -/
def listFiles (path : Path N) : Option (List (Path N)) :=
  match nodeOf fs path with
  | some (.dir es) => some (es.map fun e => path ++ [.name e.1])
  | _ => none

/-! ### The recursion ends

The links that are left become fewer behind a link, the tree becomes smaller behind another entry.
-/

def linksLeft (path : Path N) : ℕ := ((stat fs path).map Prod.fst).getD 0

noncomputable def weight (path : Path N) : ℕ := ((nodeOf fs path).map fun t => sizeOf t + 1).getD 0

theorem stat_append (path cs : Path N) :
    stat fs (path ++ cs) = (stat fs path).bind fun r => fs.resolve r.1 r.2 cs :=
  fs.resolve_append fs.maxSymlinks [] path cs

theorem exists_of_listFiles {path : Path N} {files : List (Path N)}
    (h : listFiles fs path = some files) :
    ∃ links loc es, stat fs path = some (links, loc) ∧ fs.at? loc = some (.dir es) ∧
      files = es.map fun e => path ++ [.name e.1] := by
  unfold listFiles at h
  rcases hs : stat fs path with _ | ⟨links, loc⟩
  · simp [nodeOf, hs] at h
  · rcases hn : fs.at? loc with _ | _ | _ | es | target
    all_goals simp [nodeOf, hs, hn] at h
    exact ⟨links, loc, es, rfl, hn, h.symm⟩

theorem listed_lt {path file : Path N} {files : List (Path N)} (h : listFiles fs path = some files)
    (hfile : file ∈ files) :
    Prod.Lex (· < ·) (· < ·) (linksLeft fs file, weight fs file)
      (linksLeft fs path, weight fs path) := by
  obtain ⟨links, loc, es, hstat, hdir, rfl⟩ := exists_of_listFiles fs h
  obtain ⟨⟨n, t⟩, hmem, rfl⟩ := List.mem_map.mp hfile
  have hchild : stat fs (path ++ [.name n]) = fs.resolve links loc [.name n] := by
    rw [stat_append, hstat, Option.bind_some]
  have hlinks : linksLeft fs path = links := by simp [linksLeft, hstat]
  have hweight : weight fs path = sizeOf (Node.dir es) + 1 := by simp [weight, nodeOf, hstat, hdir]
  rw [hlinks, hweight]
  by_cases ht : ∃ target, t = .link target
  · obtain ⟨target, rfl⟩ := ht
    rcases hr : fs.resolve links loc [.name n] with _ | ⟨links', loc'⟩
    · rw [hr] at hchild
      have hleft : linksLeft fs (path ++ [.name n]) = 0 := by simp [linksLeft, hchild]
      have hnone : weight fs (path ++ [.name n]) = 0 := by simp [weight, nodeOf, hchild]
      rw [hleft, hnone]
      rcases Nat.eq_zero_or_pos links with rfl | hpos
      · exact .right 0 (Nat.succ_pos _)
      · exact .left _ _ hpos
    · have hlt := fs.links_lt hdir hmem hr
      have hleft : linksLeft fs (path ++ [.name n]) = links' := by simp [linksLeft, hchild, hr]
      rw [hleft]
      exact .left _ _ hlt
  · push Not at ht
    have hr : fs.resolve links loc [.name n] = some (links, loc ++ [n]) :=
      fs.resolve_name hdir hmem ht
    have hnode := (FileSystem.at?_entry hdir).mpr hmem
    have hleft : linksLeft fs (path ++ [.name n]) = links := by simp [linksLeft, hchild, hr]
    have hsize : weight fs (path ++ [.name n]) = sizeOf t + 1 := by
      simp [weight, nodeOf, hchild, hr, hnode]
    rw [hleft, hsize]
    have hlt := Node.sizeOf_lt_of_mem hmem
    exact .right links (by omega)

def recursiveListFilesFromPath (file : Path N) : List (Path N) :=
  file ::
    if isDirectory fs file then
      ((listFiles fs file).attach.map fun e => e.1.attach.flatMap fun f =>
        recursiveListFilesFromPath f.1).getD []
    else []
termination_by (linksLeft fs file, weight fs file)
decreasing_by exact listed_lt fs e.2 f.2

/-- The function is what the source says of it. -/
theorem recursiveListFilesFromPath_eq (file : Path N) : recursiveListFilesFromPath fs file =
    file :: if isDirectory fs file then
      ((listFiles fs file).map fun e => e.flatMap (recursiveListFilesFromPath fs)).getD []
    else [] := by
  rw [recursiveListFilesFromPath]
  rcases h : listFiles fs file with _ | files
  · simp
  · simp

/-! ### Owners and modes -/

section Attributes

variable {V : Type}

/-- The system call for one file changes an attribute at the place to which its path leads. It
fails, without an effect, if it leads nowhere. -/
def changeOne (change : V → V) (attributes : List N → V) (file : Path N) (loc : List N) : V :=
  match stat fs file with
  | none => attributes loc
  | some (_, place) => if loc = place then change (attributes loc) else attributes loc

def changeAll (change : V → V) (files : List (Path N)) (attributes : List N → V) : List N → V :=
  files.foldl (changeOne fs change) attributes

def selected (path : Path N) (recursive : Bool) : List (Path N) :=
  if recursive then recursiveListFilesFromPath fs path else [path]

/-- The owners after the system call for one file: -1 leaves the user or the group. -/
def owned (user group : ℤ) (owner : ℤ × ℤ) : ℤ × ℤ :=
  (if user = -1 then owner.1 else user, if group = -1 then owner.2 else group)

/-- `chown`: whether the path exists, and the owners afterwards, by places. -/
def chown (path : Path N) (user group : ℤ) (recursive : Bool) (owners : List N → ℤ × ℤ) :
    Bool × (List N → ℤ × ℤ) :=
  if !fileExists fs path then (false, owners)
  else (true, changeAll fs (owned user group) (selected fs path recursive) owners)

/-- `chmod`, with the modes. -/
def chmod (path : Path N) (mode : ℤ) (recursive : Bool) (modes : List N → ℤ) :
    Bool × (List N → ℤ) :=
  if !fileExists fs path then (false, modes)
  else (true, changeAll fs (fun _ => mode) (selected fs path recursive) modes)

end Attributes

/-- The owners and modes of all places. -/
structure Attributes (N : Type) where
  owners : List N → ℤ × ℤ
  modes : List N → ℤ

/-- `System.Chown` and `System.Chmod`. -/
inductive Request (N : Type) where
  | chown (what : Path N) (userId : ℤ) (recursive : Bool)
  | chmod (what : Path N) (mode : ℤ) (recursive : Bool)

def Request.what : Request N → Path N
  | chown what _ _ => what
  | chmod what _ _ => what

def defaultUserGroup : ℤ := 0

/-- What `SvdSystemManager` does with a request. -/
def receive (attributes : Attributes N) : Request N → Attributes N
  | .chown what userId recursive =>
    { attributes with owners := (chown fs what userId defaultUserGroup recursive
      attributes.owners).2 }
  | .chmod what mode recursive =>
    { attributes with modes := (chmod fs what mode recursive attributes.modes).2 }

/-! ### The tree of a path -/

/-- The path itself, or an entry below it: no link is followed behind the path. -/
def Entry (path file : Path N) : Prop :=
  file = path ∨ ∃ links loc ns, stat fs path = some (links, loc) ∧ (fs.at? (loc ++ ns)).isSome ∧
    file = below path ns

/-- The place is in the tree to which the path leads. -/
def InTree (path : Path N) (loc : List N) : Prop :=
  ∃ links root, stat fs path = some (links, root) ∧ root <+: loc

/-- **The path and every entry below it are listed exactly once, and nothing else; only places of
the tree get another owner or mode**. -/
structure StaysInside (path : Path N) : Prop where
  once : (recursiveListFilesFromPath fs path).Nodup
  listed : ∀ file, file ∈ recursiveListFilesFromPath fs path ↔ Entry fs path file
  owners : ∀ user group owners loc, ¬ InTree fs path loc →
    (chown fs path user group true owners).2 loc = owners loc
  modes : ∀ mode modes loc, ¬ InTree fs path loc → (chmod fs path mode true modes).2 loc = modes loc

/-- Every link in the tree that leads somewhere leads to a place of the tree,
and not to a directory with entries. -/
def LinksInside (path : Path N) : Prop :=
  ∀ links loc ns target, stat fs path = some (links, loc) →
    fs.at? (loc ++ ns) = some (.link target) →
    ∀ links' loc', stat fs (below path ns) = some (links', loc') →
      loc <+: loc' ∧ ∀ es, fs.at? loc' = some (.dir es) → es = []

/-! ### What is listed -/

section Listed

variable {fs} {path file : Path N} {links : ℕ} {loc ns ms : List N}
    {es : List (N × Node N)} {t : Node N}

/-- In the tree, no link is used up on the way to what is no link. -/
theorem stat_below (h : stat fs path = some (links, loc)) (ht : fs.at? (loc ++ ns) = some t)
    (hlink : ∀ target, t ≠ .link target) : stat fs (below path ns) = some (links, loc ++ ns) := by
  induction ns using List.reverseRecOn generalizing t with
  | nil => rwa [below_nil, List.append_nil]
  | append_singleton ns n ih =>
    rw [← List.append_assoc] at ht
    obtain ⟨es, hdir, hmem⟩ := FileSystem.at?_concat.mp ht
    have hup := ih hdir fun _ hd => by cases hd
    rw [← below_concat, stat_append, hup, Option.bind_some, fs.resolve_name hdir hmem hlink,
      List.append_assoc]

theorem recursive_of_dir (h : nodeOf fs file = some (.dir es)) :
    recursiveListFilesFromPath fs file =
    file :: es.flatMap fun e => recursiveListFilesFromPath fs (file ++ [.name e.1]) := by
  have hdirectory : isDirectory fs file = true := by rw [isDirectory, h]; rfl
  have hfiles : listFiles fs file = some (es.map fun e => file ++ [.name e.1]) := by
    rw [listFiles, h]
  rw [recursiveListFilesFromPath_eq, if_pos hdirectory, hfiles, Option.map_some, Option.getD_some,
    List.flatMap_map]

theorem recursive_of_empty (h : ∀ es, nodeOf fs file = some (.dir es) → es = []) :
    recursiveListFilesFromPath fs file = [file] := by
  by_cases hdir : ∃ es, nodeOf fs file = some (.dir es)
  · obtain ⟨es, hdir⟩ := hdir
    rw [recursive_of_dir hdir, h es hdir, List.flatMap_nil]
  · push Not at hdir
    have hfiles : listFiles fs file = none := by
      unfold listFiles
      split
      · next es hes => exact absurd hes (hdir es)
      · rfl
    rw [recursiveListFilesFromPath_eq, hfiles, Option.map_none, Option.getD_none, ite_self]

theorem self_mem (file : Path N) : file ∈ recursiveListFilesFromPath fs file := by
  rw [recursiveListFilesFromPath_eq]
  exact List.mem_cons_self

/-- With a directory, its entries are listed. -/
theorem entries_mem (hfile : file ∈ recursiveListFilesFromPath fs path)
    (h : nodeOf fs file = some (.dir es)) {e : N × Node N} (he : e ∈ es) :
    file ++ [.name e.1] ∈ recursiveListFilesFromPath fs path := by
  induction path using recursiveListFilesFromPath.induct fs with
  | case1 path ih =>
    by_cases hdir : ∃ es, nodeOf fs path = some (.dir es)
    · obtain ⟨es', hdir⟩ := hdir
      have hfiles : listFiles fs path = some (es'.map fun e => path ++ [.name e.1]) := by
        rw [listFiles, hdir]
      rw [recursive_of_dir hdir] at hfile ⊢
      refine List.mem_cons_of_mem path (List.mem_flatMap.mpr ?_)
      rcases List.mem_cons.mp hfile with rfl | hfile
      · rw [hdir] at h
        obtain rfl := Node.dir.inj (Option.some.inj h)
        exact ⟨e, he, self_mem _⟩
      · obtain ⟨e', he', hmem⟩ := List.mem_flatMap.mp hfile
        have hchild : path ++ [.name e'.1] ∈ es'.map fun e => path ++ [.name e.1] :=
          List.mem_map_of_mem he'
        exact ⟨e', he', ih ⟨_, hfiles⟩ ⟨_, hchild⟩ hmem⟩
    · push Not at hdir
      rw [recursive_of_empty fun es' hes' => absurd hes' (hdir es'), List.mem_singleton] at hfile
      subst hfile
      exact absurd h (hdir es)

variable (fs path) in
/-- For the entry with the names `ns`, the tree `t` below it is listed, and each path once. -/
def ListsTree (ns : List N) (t : Node N) : Prop :=
  (recursiveListFilesFromPath fs (below path ns)).Nodup ∧
    ∀ file, file ∈ recursiveListFilesFromPath fs (below path ns) ↔
      ∃ ms, (t.at? ms).isSome ∧ file = below path (ns ++ ms)

/-- What is listed alone, with nothing below it. -/
theorem listsTree_leaf (hrec : recursiveListFilesFromPath fs (below path ns) = [below path ns])
    (hempty : ∀ n, t.child n = none) : ListsTree fs path ns t := by
  refine ⟨?_, fun file => ?_⟩
  · rw [hrec]
    exact List.nodup_singleton _
  · rw [hrec, List.mem_singleton]
    constructor
    · rintro rfl
      exact ⟨[], rfl, by rw [List.append_nil]⟩
    · rintro ⟨_ | ⟨n, ms⟩, hms, rfl⟩
      · rw [List.append_nil]
      · rw [Node.at?_cons, hempty] at hms
        cases hms

section Entries

variable (hdistinct : (Node.dir es).Distinct) (hchild : ∀ e ∈ es,
    ListsTree fs path (ns ++ [e.1]) e.2)
include hdistinct hchild

/-- The entries of a directory list what is below it. -/
theorem mem_entries :
    (file ∈ es.flatMap fun e => recursiveListFilesFromPath fs (below path (ns ++ [e.1]))) ↔
    ∃ n ms, ((Node.dir es).at? (n :: ms)).isSome ∧ file = below path (ns ++ n :: ms) := by
  rw [List.mem_flatMap]
  constructor
  · rintro ⟨e, he, hfile⟩
    obtain ⟨ms, hms, rfl⟩ := ((hchild e he).2 file).mp hfile
    refine ⟨e.1, ms, ?_, by rw [List.append_assoc, List.singleton_append]⟩
    rwa [Node.at?_cons, hdistinct.child_iff.mpr he, Option.bind_some]
  · rintro ⟨n, ms, hms, rfl⟩
    obtain ⟨d, hd⟩ := Option.isSome_iff_exists.mp hms
    rw [Node.at?_cons] at hd
    obtain ⟨c, hc, hcd⟩ := Option.bind_eq_some_iff.mp hd
    have he := Node.mem_of_child hc
    refine ⟨(n, c), he, ((hchild _ he).2 _).mpr ⟨ms, Option.isSome_of_eq_some hcd, ?_⟩⟩
    rw [List.append_assoc, List.singleton_append]

/-- Different entries list different paths. -/
theorem nodup_entries :
    (es.flatMap fun e => recursiveListFilesFromPath fs (below path (ns ++ [e.1]))).Nodup := by
  refine List.nodup_flatMap.mpr ⟨fun e he => (hchild e he).1, ?_⟩
  cases hdistinct with
  | dir hnodup =>
    refine (List.pairwise_map.mp hnodup).imp_of_mem fun {e e'} he he' hne => ?_
    rintro file hfile hfile'
    obtain ⟨ms, -, rfl⟩ := ((hchild e he).2 file).mp hfile
    obtain ⟨ms', -, heq⟩ := ((hchild e' he').2 _).mp hfile'
    have hnames := below_inj.mp heq
    rw [List.append_assoc, List.append_assoc, List.append_cancel_left_eq] at hnames
    exact hne (List.cons.inj hnames).1

theorem listsTree_dir (hdir : nodeOf fs (below path ns) = some (.dir es)) :
    ListsTree fs path ns (.dir es) := by
  have hrec : recursiveListFilesFromPath fs (below path ns) =
      below path ns :: es.flatMap fun e => recursiveListFilesFromPath fs
        (below path (ns ++ [e.1])) := by
    rw [recursive_of_dir hdir]
    simp only [below_concat]
  refine ⟨?_, fun file => ?_⟩
  · rw [hrec]
    refine List.nodup_cons.mpr ⟨fun hmem => ?_, nodup_entries hdistinct hchild⟩
    obtain ⟨n, ms, -, heq⟩ := (mem_entries hdistinct hchild).mp hmem
    have hlen := congrArg List.length (below_inj.mp heq)
    rw [List.length_append, List.length_cons] at hlen
    omega
  · rw [hrec, List.mem_cons, mem_entries hdistinct hchild]
    constructor
    · rintro (rfl | ⟨n, ms, hms, rfl⟩)
      · exact ⟨[], rfl, by rw [List.append_nil]⟩
      · exact ⟨n :: ms, hms, rfl⟩
    · rintro ⟨_ | ⟨n, ms⟩, hms, rfl⟩
      · exact .inl (by rw [List.append_nil])
      · exact .inr ⟨n, ms, hms, rfl⟩

end Entries

/-- **If all links stay inside, the tree below an entry is listed**. -/
theorem recursive_spec {ns : List N} {t : Node N} (h : stat fs path = some (links, loc))
    (hlinks : LinksInside fs path) (ht : fs.at? (loc ++ ns) = some t) : ListsTree fs path ns t := by
  have node : (∀ target, t ≠ .link target) → nodeOf fs (below path ns) = some t := by
    intro hlink
    rw [nodeOf, stat_below h ht hlink, Option.bind_some, ht]
  match t with
  | .file | .locked =>
    refine listsTree_leaf (recursive_of_empty fun es hes => ?_) fun _ => rfl
    rw [node fun _ hne => by cases hne] at hes
    cases hes
  | .link target =>
    refine listsTree_leaf (recursive_of_empty fun es hes => ?_) fun _ => rfl
    obtain ⟨⟨links', loc'⟩, hstat, hdir⟩ := Option.bind_eq_some_iff.mp hes
    exact (hlinks links loc ns target h ht links' loc' hstat).2 es hdir
  | .dir es =>
    refine listsTree_dir (fs.distinct.at? ht) (fun e he => ?_) (node fun _ hne => by cases hne)
    have hentry := FileSystem.at?_concat.mpr ⟨es, ht, he⟩
    rw [List.append_assoc] at hentry
    exact recursive_spec h hlinks hentry
termination_by sizeOf t
decreasing_by exact Node.sizeOf_lt_of_mem he

end Listed

/-! ### What is changed -/

section Changed

variable {fs} {path : Path N} {V : Type} {change : V → V} {files : List (Path N)}
    {attributes : List N → V}
  {links : ℕ} {loc : List N}

theorem changeAll_outside (h : ∀ file ∈ files, ∀ links, stat fs file ≠ some (links, loc)) :
    changeAll fs change files attributes loc = attributes loc := by
  induction files generalizing attributes with
  | nil => rfl
  | cons file files ih =>
    have hone : changeOne fs change attributes file loc = attributes loc := by
      unfold changeOne
      split
      · rfl
      · next links place hs =>
        refine if_neg ?_
        rintro rfl
        exact h file List.mem_cons_self links hs
    exact (ih fun f hf => h f (List.mem_cons_of_mem file hf)).trans hone

/-- A value that is given to all files stays. -/
theorem changeAll_value {value : V} (h : attributes loc = value) :
    changeAll fs (fun _ => value) files attributes loc = value := by
  induction files generalizing attributes with
  | nil => exact h
  | cons file files ih =>
    refine ih ?_
    unfold changeOne
    split
    · exact h
    · rw [h, ite_self]

theorem changeAll_inside {value : V} {file : Path N} (hfile : file ∈ files)
    (h : stat fs file = some (links, loc)) :
    changeAll fs (fun _ => value) files attributes loc = value := by
  obtain ⟨before, after, rfl⟩ := List.append_of_mem hfile
  have hone : changeOne fs (fun _ => value) (before.foldl (changeOne fs fun _ => value) attributes)
    file loc =
      value := by
    simp only [changeOne, h, if_pos]
  rw [changeAll, List.foldl_append, List.foldl_cons]
  exact changeAll_value hone

end Changed

/-! ### When the tree is all -/

section StaysInside

variable {fs} {path : Path N} {links : ℕ} {loc : List N}

/-- All listed paths lead to places of the tree. -/
theorem inTree_of_entry (hlinks : LinksInside fs path) {file : Path N} (hfile : Entry fs path file)
    (h : stat fs file = some (links, loc)) : InTree fs path loc := by
  rcases hfile with rfl | ⟨links₀, root, ns, hstat, hnode, rfl⟩
  · exact ⟨links, loc, h, List.prefix_rfl⟩
  · obtain ⟨t, ht⟩ := Option.isSome_iff_exists.mp hnode
    by_cases hlink : ∃ target, t = .link target
    · obtain ⟨target, rfl⟩ := hlink
      exact ⟨links₀, root, hstat, (hlinks links₀ root ns target hstat ht links loc h).1⟩
    · push Not at hlink
      rw [stat_below hstat ht hlink] at h
      obtain ⟨-, rfl⟩ := Prod.mk.inj (Option.some.inj h)
      exact ⟨links₀, root, hstat, List.prefix_append root ns⟩

theorem listed_of_linksInside (hlinks : LinksInside fs path) :
    (recursiveListFilesFromPath fs path).Nodup ∧
      ∀ file, file ∈ recursiveListFilesFromPath fs path ↔ Entry fs path file := by
  rcases hstat : stat fs path with _ | ⟨links, loc⟩
  · -- a path that leads nowhere is listed alone
    have hnode : ∀ es, nodeOf fs path = some (.dir es) → es = [] := by simp [nodeOf, hstat]
    rw [recursive_of_empty hnode]
    refine ⟨List.nodup_singleton path, fun file => ?_⟩
    simp [Entry, hstat]
  · obtain ⟨t, ht, -⟩ := fs.stands_resolve hstat fs.stands_root
    have hroot : fs.at? (loc ++ []) = some t := by rwa [List.append_nil]
    have hspec := recursive_spec hstat hlinks hroot
    rw [ListsTree, below_nil] at hspec
    refine ⟨hspec.1, fun file => (hspec.2 file).trans ?_⟩
    constructor
    · rintro ⟨ns, hns, rfl⟩
      refine .inr ⟨links, loc, ns, hstat, ?_, rfl⟩
      rwa [FileSystem.at?, Node.at?_append, ← FileSystem.at?, ht, Option.bind_some]
    · rintro (rfl | ⟨links', loc', ns, hstat', hns, rfl⟩)
      · exact ⟨[], rfl, below_nil.symm⟩
      · rw [hstat] at hstat'
        obtain ⟨-, rfl⟩ := Prod.mk.inj (Option.some.inj hstat')
        refine ⟨ns, ?_, rfl⟩
        rwa [FileSystem.at?, Node.at?_append, ← FileSystem.at?, ht, Option.bind_some] at hns

section Outside

variable (hlinks : LinksInside fs path) (hloc : ¬ InTree fs path loc)
include hlinks hloc

/-- Nothing outside of the tree is changed if all that is listed leads into it. -/
theorem changeAll_selected {V : Type} {change : V → V} {attributes : List N → V}
    (recursive : Bool) :
    changeAll fs change (selected fs path recursive) attributes loc = attributes loc := by
  refine changeAll_outside fun file hfile links hstat => hloc (inTree_of_entry hlinks ?_ hstat)
  cases recursive with
  | true => exact ((listed_of_linksInside hlinks).2 file).mp hfile
  | false => exact .inl (List.mem_singleton.mp hfile)

theorem chown_outside (user group : ℤ) (recursive : Bool) (owners : List N → ℤ × ℤ) :
    (chown fs path user group recursive owners).2 loc = owners loc := by
  unfold chown
  split_ifs
  · rfl
  · exact changeAll_selected hlinks hloc recursive

theorem chmod_outside (mode : ℤ) (recursive : Bool) (modes : List N → ℤ) :
    (chmod fs path mode recursive modes).2 loc = modes loc := by
  unfold chmod
  split_ifs
  · rfl
  · exact changeAll_selected hlinks hloc recursive

end Outside

/-- **Requests for trees with such links leave all other places as they are**, in every sequence. -/
theorem requests_outside {requests : List (Request N)} (attributes : Attributes N)
    (hlinks : ∀ r ∈ requests, LinksInside fs r.what)
    (hloc : ∀ r ∈ requests, ¬ InTree fs r.what loc) :
    (requests.foldl (receive fs) attributes).owners loc = attributes.owners loc ∧
      (requests.foldl (receive fs) attributes).modes loc = attributes.modes loc := by
  induction requests generalizing attributes with
  | nil => exact ⟨rfl, rfl⟩
  | cons r requests ih =>
    obtain ⟨hr, hrest⟩ := List.forall_mem_cons.mp hlinks
    obtain ⟨hrloc, hrestloc⟩ := List.forall_mem_cons.mp hloc
    obtain ⟨howners, hmodes⟩ := ih (receive fs attributes r) hrest hrestloc
    rw [List.foldl_cons, howners, hmodes]
    cases r with
    | chown what userId recursive =>
      exact ⟨chown_outside hr hrloc userId defaultUserGroup recursive attributes.owners, rfl⟩
    | chmod what mode recursive =>
      exact ⟨rfl, chmod_outside hr hrloc mode recursive attributes.modes⟩

/-- A link in the tree is listed, so what it leads to is listed and changed with it. -/
theorem linksInside_of_staysInside (h : StaysInside fs path) : LinksInside fs path := by
  intro links loc ns target hstat hlink links' loc' hlead
  have hfile : below path ns ∈ recursiveListFilesFromPath fs path :=
    (h.listed _).mpr (.inr ⟨links, loc, ns, hstat, by rw [hlink]; rfl, rfl⟩)
  constructor
  · by_contra hout
    have hloc : ¬ InTree fs path loc' := by
      rintro ⟨l, root, hroot, hle⟩
      rw [hstat] at hroot
      obtain ⟨-, rfl⟩ := Prod.mk.inj (Option.some.inj hroot)
      exact hout hle
    have hkept := h.modes 1 (fun _ => 0) loc' hloc
    have hexists : fileExists fs path = true := by rw [fileExists, hstat]; rfl
    have hset : changeAll fs (fun _ => (1 : ℤ)) (recursiveListFilesFromPath fs path) (fun _ =>
      0) loc' = 1 :=
      changeAll_inside hfile hlead
    have hchmod : (chmod fs path 1 true fun _ => 0).2 loc' = 1 := by
      simp only [chmod, hexists, selected, Bool.not_true, Bool.false_eq_true, if_false,
        if_true, hset]
    rw [hchmod] at hkept
    cases hkept
  · intro es hdir
    rcases es with _ | ⟨e, es⟩
    · rfl
    · exfalso
      have hnode : nodeOf fs (below path ns) = some (.dir (e :: es)) := by
        rw [nodeOf, hlead, Option.bind_some, hdir]
      have hmem := entries_mem hfile hnode List.mem_cons_self
      rw [below_concat] at hmem
      rcases (h.listed _).mp hmem with heq | ⟨l, root, ms, hroot, hms, heq⟩
      · have hnil : below path (ns ++ [e.1]) = below path [] := heq.trans below_nil.symm
        simpa using below_inj.mp hnil
      · -- an entry of the tree is not behind a link
        rw [hstat] at hroot
        obtain ⟨-, rfl⟩ := Prod.mk.inj (Option.some.inj hroot)
        obtain rfl := below_inj.mp heq
        obtain ⟨t, ht⟩ := Option.isSome_iff_exists.mp hms
        rw [← List.append_assoc] at ht
        obtain ⟨es', hdir', -⟩ := FileSystem.at?_concat.mp ht
        rw [hlink] at hdir'
        cases hdir'

/-- **Recursive chown and chmod stay inside the tree exactly if its links do**: each one leads
nowhere, or to a place of the tree that is not a directory with entries. -/
theorem staysInside_iff (fs : FileSystem N) (path : Path N) : StaysInside fs path ↔
    LinksInside fs path := by
  constructor
  · exact linksInside_of_staysInside
  · intro hlinks
    obtain ⟨honce, hlisted⟩ := listed_of_linksInside hlinks
    refine ⟨honce, hlisted, fun user group owners loc hloc => ?_, fun mode modes loc hloc => ?_⟩
    · exact chown_outside hlinks hloc user group true owners
    · exact chmod_outside hlinks hloc mode true modes

end StaysInside

/-- Directories of the system and of users, with a link to `/etc` in the latter. -/
def homeWithLink : FileSystem String where
  entries :=
    [("etc", .dir [("passwd", .file)]), ("home", .dir [("link", .link ⟨true, [.name "etc"]⟩)])]
  distinct := by
    refine .dir (by simp) ?_
    simp only [List.forall_mem_cons, List.not_mem_nil, false_implies, implies_true, and_true]
    refine ⟨.dir (by simp) ?_, .dir (by simp) ?_⟩
    · simpa using Node.Distinct.file
    · simpa using Node.Distinct.link
  maxSymlinks := 32

/-- `/etc/passwd` is in the list of `/home`, and gets a new owner. -/
theorem not_staysInside_homeWithLink : ¬ StaysInside homeWithLink [.name "home"] := by
  intro h
  obtain ⟨hle, -⟩ := linksInside_of_staysInside h 32 ["home"] ["link"] ⟨true, [.name "etc"]⟩ rfl rfl
    31 ["etc"] rfl
  exact absurd hle (by decide)

end ServeD.Utils.Ownership
