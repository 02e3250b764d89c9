import Mathlib.Data.List.Induction
import Mathlib.Data.List.Nodup

/-! # File trees with symbolic links

A file system is a finite tree of named entries, some of which are links. A path is followed name by
name as the system does it: a link is replaced by its target, `..` goes to the directory above, and
there is a bound on the links that one path may follow, so that paths through cyclic links lead
nowhere.

* `resolve_append`: where a path leads that goes on behind another one;
* `resolve_name`, `links_lt`: a name leads one level down in the tree, or uses up a link. -/

namespace ServeD.Lib.LinkTrees

inductive Component (N : Type) where
  /-- `.` -/
  | here
  /-- `..` -/
  | up
  | name (n : N)
  deriving DecidableEq

/-- A path, from the root or, as the target of a link, from the directory of the link. -/
abbrev Path (N : Type) := List (Component N)

structure Target (N : Type) where
  absolute : Bool
  path : Path N

inductive Node (N : Type) where
  | file
  /-- a directory that can neither be listed nor entered -/
  | locked
  | dir (entries : List (N × Node N))
  | link (target : Target N)

variable {N : Type}

/-- The path with these names behind it. -/
def below (path : Path N) (ns : List N) : Path N := path ++ ns.map .name

namespace Node

def isDirectory : Node N → Bool
  | locked | dir _ => true
  | _ => false

/-- The names in a directory are different, and so below it. -/
inductive Distinct : Node N → Prop where
  | file : Distinct file
  | locked : Distinct locked
  | link : Distinct (link target)
  | dir : (es.map Prod.fst).Nodup → (∀ e ∈ es, Distinct e.2) → Distinct (dir es)

theorem sizeOf_lt_of_mem {es : List (N × Node N)} {n : N} {c : Node N} (h : (n, c) ∈ es) :
    sizeOf c < sizeOf (dir es) := by
  have hmem := List.sizeOf_lt_of_mem h
  have hpair : sizeOf (n, c) = 1 + sizeOf n + sizeOf c := rfl
  have hdir : sizeOf (dir es) = 1 + sizeOf es := dir.sizeOf_spec es
  omega

variable [DecidableEq N]

def child (n : N) : Node N → Option (Node N)
  | dir es => es.lookup n
  | _ => none

/-- The node with these names on the way to it. No links are followed. -/
def at? : Node N → List N → Option (Node N)
  | t, [] => some t
  | t, n :: ns => (t.child n).bind (at? · ns)

end Node

structure FileSystem (N : Type) where
  entries : List (N × Node N)
  distinct : (Node.dir entries).Distinct
  /-- the links that a path may follow -/
  maxSymlinks : ℕ

namespace FileSystem

variable [DecidableEq N] (fs : FileSystem N)

/-- The node at a place, given by the names from the root. -/
def at? (loc : List N) : Option (Node N) := (Node.dir fs.entries).at? loc

/-- One component: the next place, or the target of a link. -/
def enter (loc : List N) (c : Component N) : Option (List N ⊕ Target N) :=
  match fs.at? loc with
  | some (.dir es) =>
    match c with
    | .here => some (.inl loc)
    | .up => some (.inl loc.dropLast)
    | .name n =>
      match es.lookup n with
      | none => none
      | some (.link target) => some (.inr target)
      | some _ => some (.inl (loc ++ [n]))
  | _ => none

/-- Where a path leads from a place, and how many links may still be followed,
if `follow` does it behind a link. -/
def walk (links : ℕ) (follow : List N → Path N → Option (ℕ × List N)) :
    List N → Path N → Option (ℕ × List N)
  | loc, [] => some (links, loc)
  | loc, c :: cs =>
    match fs.enter loc c with
    | none => none
    | some (.inl loc') => walk links follow loc' cs
    | some (.inr target) => follow (if target.absolute then [] else loc) (target.path ++ cs)

/-- Where a path leads from a place if so many links may be followed. -/
def resolve : ℕ → List N → Path N → Option (ℕ × List N)
  | 0 => fs.walk 0 fun _ _ => none
  | links + 1 => fs.walk (links + 1) (resolve links)

end FileSystem

section Below

variable {path : Path N} {ns ms : List N}

@[simp] theorem below_nil : below path [] = path := List.append_nil path

theorem below_concat {n : N} : below path ns ++ [.name n] = below path (ns ++ [n]) := by
  simp [below]

theorem below_inj : below path ns = below path ms ↔ ns = ms := by
  have hname : Function.Injective (Component.name (N := N)) := fun _ _ => Component.name.inj
  rw [below, below, List.append_cancel_left_eq]
  exact hname.list_map.eq_iff

end Below

/-! ### Places -/

section At

variable [DecidableEq N]

namespace Node

variable {t c : Node N} {es : List (N × Node N)} {n : N} {ns ms : List N}

@[simp] theorem at?_nil : t.at? [] = some t := by
  unfold at?
  rfl

theorem at?_cons : t.at? (n :: ns) = (t.child n).bind (·.at? ns) := by
  rw [at?]

theorem at?_append : t.at? (ns ++ ms) = (t.at? ns).bind (·.at? ms) := by
  induction ns generalizing t with
  | nil => rw [at?_nil, List.nil_append, Option.bind_some]
  | cons n ns ih =>
    rw [List.cons_append, at?_cons, at?_cons, Option.bind_assoc]
    exact congrArg (t.child n).bind (funext fun _ => ih)

theorem mem_of_child (h : (dir es).child n = some c) : (n, c) ∈ es := by
  obtain ⟨l₁, l₂, rfl, -⟩ := List.lookup_eq_some_iff.mp h
  simp

theorem Distinct.child_iff (h : (Node.dir es).Distinct) : (Node.dir es).child n = some c ↔
    (n, c) ∈ es := by
  refine ⟨mem_of_child, fun hmem => ?_⟩
  cases h with
  | dir hnodup =>
    obtain ⟨l₁, l₂, rfl⟩ := List.append_of_mem hmem
    refine List.lookup_eq_some_iff.mpr ⟨l₁, l₂, rfl, fun e he => ?_⟩
    rw [List.map_append, List.map_cons] at hnodup
    have hdisjoint := List.disjoint_of_nodup_append hnodup (List.mem_map_of_mem he)
    rw [bne_iff_ne]
    rintro rfl
    exact hdisjoint List.mem_cons_self

theorem Distinct.at? (h : t.Distinct) (hc : t.at? ns = some c) : c.Distinct := by
  induction ns generalizing t with
  | nil =>
    rw [at?_nil] at hc
    rwa [← Option.some.inj hc]
  | cons n ns ih =>
    rw [at?_cons] at hc
    obtain ⟨d, hd, hc'⟩ := Option.bind_eq_some_iff.mp hc
    cases h with
    | dir _ hes => exact ih (hes _ (mem_of_child hd)) hc'
    | _ => cases hd

end Node

namespace FileSystem

variable {fs : FileSystem N} {es : List (N × Node N)} {t : Node N} {loc : List N} {n : N}

/-- The entries of a directory. -/
theorem at?_entry (h : fs.at? loc = some (.dir es)) : fs.at? (loc ++ [n]) = some t ↔
    (n, t) ∈ es := by
  have hdistinct := fs.distinct.at? h
  rw [at?, Node.at?_append, show (Node.dir fs.entries).at? loc = _ from h, Option.bind_some,
    Node.at?_cons]
  simp only [Node.at?_nil, Option.bind_fun_some]
  exact hdistinct.child_iff

theorem at?_concat : fs.at? (loc ++ [n]) = some t ↔
    ∃ es, fs.at? loc = some (.dir es) ∧ (n, t) ∈ es := by
  refine ⟨fun h => ?_, fun ⟨es, hdir, hmem⟩ => (at?_entry hdir).mpr hmem⟩
  rw [at?, Node.at?_append] at h
  obtain ⟨d, hd, hc⟩ := Option.bind_eq_some_iff.mp h
  cases d with
  | dir es =>
    exact ⟨es, hd, (at?_entry hd).mp (by rw [at?, Node.at?_append, hd, Option.bind_some, hc])⟩
  | _ =>
    rw [Node.at?_cons] at hc
    cases hc

end FileSystem

/-! ### Paths -/

namespace FileSystem

variable (fs : FileSystem N) {es : List (N × Node N)} {t : Node N} {links links' : ℕ}
    {loc loc' : List N} {n : N}
  {ns : List N} {cs ds : Path N}

theorem walk_append {follow : List N → Path N → Option (ℕ × List N)}
    (h : ∀ loc cs, follow loc (cs ++ ds) = (follow loc cs).bind fun r => fs.resolve r.1 r.2 ds)
    (hlinks : fs.walk links follow = fs.resolve links) :
    fs.walk links follow loc (cs ++ ds) = (fs.walk links follow loc cs).bind fun r =>
      fs.resolve r.1 r.2 ds := by
  induction cs generalizing loc with
  | nil => rw [List.nil_append, walk, Option.bind_some, hlinks]
  | cons c cs ih =>
    rw [List.cons_append, walk, walk]
    rcases fs.enter loc c with _ | loc' | target
    · rfl
    · exact ih
    · have hassoc : target.path ++ (cs ++ ds) = target.path ++ cs ++ ds :=
        (List.append_assoc ..).symm
      simp only [hassoc]
      exact h _ _

/-- **A longer path goes on where the shorter one leads**, with the links that are left. -/
theorem resolve_append (links : ℕ) (loc : List N) (cs ds : Path N) :
    fs.resolve links loc (cs ++ ds) = (fs.resolve links loc cs).bind fun r =>
      fs.resolve r.1 r.2 ds := by
  induction links generalizing loc cs with
  | zero => exact fs.walk_append (fun _ _ => rfl) rfl
  | succ links ih => exact fs.walk_append ih rfl

/-- **What holds of a path holds of where it leads** if it is kept by each component
and by each link. -/
theorem resolve_induction {P : ℕ → List N → ℕ × List N → Prop}
    (nil : ∀ links loc, P links loc (links, loc)) (enter : ∀ links loc c loc' r, fs.enter loc c =
      some (.inl loc') → P links loc' r → P links loc r)
    (link : ∀ links loc c target r, fs.enter loc c = some (.inr target) →
      P links (if target.absolute then [] else loc) r → P (links + 1) loc r) :
    ∀ (links : ℕ) (loc : List N) (cs : Path N) (r : ℕ × List N), fs.resolve links loc cs = some r →
      P links loc r := by
  have walk : ∀ {links : ℕ} {follow : List N → Path N → Option (ℕ × List N)},
      (∀ loc c target cs r, fs.enter loc c = some (.inr target) →
        follow (if target.absolute then [] else loc) cs = some r → P links loc r) →
      ∀ (loc : List N) (cs : Path N) (r : ℕ × List N), fs.walk links follow loc cs = some r →
        P links loc r := by
    intro links follow hfollow loc cs r hr
    induction cs generalizing loc with
    | nil =>
      rw [walk] at hr
      obtain rfl := Option.some.inj hr
      exact nil links loc
    | cons c cs ih =>
      rw [walk] at hr
      rcases hc : fs.enter loc c with _ | loc' | target
      · rw [hc] at hr
        cases hr
      · rw [hc] at hr
        exact enter links loc c loc' r hc (ih loc' hr)
      · rw [hc] at hr
        exact hfollow loc c target _ r hc hr
  intro links
  induction links with
  | zero => exact walk fun _ _ _ _ _ _ hnone => by cases hnone
  | succ links ih =>
    exact walk fun loc c target cs r hc hr => link links loc c target r hc (ih _ cs r hr)

theorem links_le (h : fs.resolve links loc cs = some (links', loc')) : links' ≤ links :=
  fs.resolve_induction (P := fun links _ r => r.1 ≤ links) (fun links _ => Nat.le_refl links)
    (fun _ _ _ _ _ _ hr => hr) (fun _ _ _ _ _ _ hr => Nat.le_succ_of_le hr) links loc cs _ h

/-- One name of an entry that is not a link. -/
theorem resolve_name (h : fs.at? loc = some (.dir es)) (hn : (n, t) ∈ es)
    (ht : ∀ target, t ≠ .link target) :
    fs.resolve links loc [.name n] = some (links, loc ++ [n]) := by
  have hchild : es.lookup n = some t := (fs.distinct.at? h).child_iff.mpr hn
  have henter : fs.enter loc (.name n) = some (.inl (loc ++ [n])) := by
    simp only [enter, h, hchild]
  rcases links with _ | links <;> simp only [resolve, walk, henter]

/-- Behind a link, fewer links are left. -/
theorem links_lt (h : fs.at? loc = some (.dir es)) {target : Target N} (hn : (n, .link target) ∈ es)
    (hr : fs.resolve links loc [.name n] = some (links', loc')) : links' < links := by
  have hchild : es.lookup n = some (.link target) := (fs.distinct.at? h).child_iff.mpr hn
  have henter : fs.enter loc (.name n) = some (.inr target) := by
    simp only [enter, h, hchild]
  rcases links with _ | links
  · simp only [resolve, walk, henter] at hr
    cases hr
  · simp only [resolve, walk, henter] at hr
    exact Nat.lt_succ_of_le (fs.links_le hr)

/-- A place that a path can lead to. -/
def Stands (loc : List N) : Prop := ∃ t, fs.at? loc = some t ∧ ∀ target, t ≠ .link target

theorem stands_root : fs.Stands [] := ⟨.dir fs.entries, Node.at?_nil, fun _ h => by cases h⟩

theorem stands_dir (h : fs.at? loc = some (.dir es)) : fs.Stands loc :=
  ⟨.dir es, h, fun _ h => by cases h⟩

theorem stands_enter {c : Component N} (h : fs.enter loc c = some (.inl loc')) :
    fs.Stands loc' := by
  unfold enter at h
  split at h
  · next es hdir =>
    cases c with
    | here =>
      obtain rfl := Sum.inl.inj (Option.some.inj h)
      exact fs.stands_dir hdir
    | up =>
      obtain rfl := Sum.inl.inj (Option.some.inj h)
      rcases List.eq_nil_or_concat' loc with rfl | ⟨upper, n, rfl⟩
      · exact fs.stands_root
      · obtain ⟨es', hdir', -⟩ := at?_concat.mp hdir
        rw [List.dropLast_concat]
        exact fs.stands_dir hdir'
    | name n =>
      simp only at h
      split at h
      · cases h
      · cases h
      · next t hlink hchild =>
        obtain rfl := Sum.inl.inj (Option.some.inj h)
        exact ⟨t, (at?_entry hdir).mpr (Node.mem_of_child hchild), fun target ht =>
          hlink target (by rw [ht])⟩
  · cases h

/-- **A path leads to a node that is no link**. -/
theorem stands_resolve (h : fs.resolve links loc cs = some (links', loc')) (hloc : fs.Stands loc) :
    fs.Stands loc' := by
  refine fs.resolve_induction (P := fun _ loc r => fs.Stands loc → fs.Stands r.2) (fun _ _ hs =>
    hs) ?_ ?_ links loc cs
    _ h hloc
  · exact fun _ _ _ _ _ hc hr _ => hr (fs.stands_enter hc)
  · intro links loc c target r _ hr hs
    refine hr ?_
    split_ifs
    · exact fs.stands_root
    · exact hs

end FileSystem

end At

end ServeD.Lib.LinkTrees
