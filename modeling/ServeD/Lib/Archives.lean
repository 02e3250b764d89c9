import Mathlib.Data.List.Infix
import Mathlib.Data.Nat.Notation

/-! # Archives

The entries of an archive by their paths: files with a content and a time, and directories. Writing
a file makes the directories above it, which is refused below another file.

* `fileAt_write`, `fileAt_fill`: the files afterwards;
* `Open.write`, `Open.fill_dir`: paths that can be written stay so;
* `Rooted.write`, `Rooted.fill`: there are directories above every entry. -/

namespace ServeD.Lib.Archives

variable {N α : Type}

inductive Entry (α : Type) where
  | file (content : α) (lastModified : ℕ)
  | dir
  deriving DecidableEq

/-- The entry at every path below the root, which is a directory. -/
abbrev Archive (N α : Type) := List N → Option (Entry α)

namespace Archive

def empty : Archive N α := fun _ => none

def isFile (a : Archive N α) (ns : List N) : Bool :=
  match a ns with
  | some (.file _ _) => true
  | _ => false

def fileAt (a : Archive N α) (ns : List N) : Option (α × ℕ) :=
  match a ns with
  | some (.file content time) => some (content, time)
  | _ => none

variable [DecidableEq N]

/-- Directories at a path and above it, where nothing is yet. -/
def fill (a : Archive N α) (ns : List N) : Archive N α := fun ms =>
  if ms <+: ns ∧ (a ms).isNone then some .dir else a ms

/-- No file stands above the path. -/
def clear (a : Archive N α) (ns : List N) : Bool := ns.inits.all fun ms =>
    decide (ms = ns) || !a.isFile ms

/-- `mkdirs`, which fails below a file and at one. -/
def mkdirs (a : Archive N α) (ns : List N) : Archive N α :=
  if a.clear ns && !a.isFile ns then a.fill ns else a

/-- A file is written to a path, and there are directories above it. -/
def write (a : Archive N α) (ns : List N) (content : α) (time : ℕ) : Archive N α := fun ms =>
  if ms = ns then some (.file content time) else a.fill ns.dropLast ms

end Archive

/-- No path of `F` is above another path of `F` or `D`, or one of `D`. -/
structure Layout (F D : List N → Prop) : Prop where
  above : ∀ ns ms, F ns → F ms ∨ D ms → ns <+: ms → ns = ms
  disjoint : ∀ ns, F ns → ¬ D ns

/-- Files can be written to the paths of `F` and directories made at those of `D`. -/
structure Open (F D : List N → Prop) (a : Archive N α) : Prop where
  file : ∀ ns, F ns → a ns ≠ some .dir
  above : ∀ ns ms, F ns ∨ D ns → ms <+: ns → ms ≠ ns → a.isFile ms = false
  dir : ∀ ns, D ns → a.isFile ns = false

/-- There are directories above every entry. -/
def Rooted (a : Archive N α) : Prop := ∀ ns ms, a ns ≠ none → ms <+: ns → ms ≠ ns → a ms = some .dir

section Files

variable {a : Archive N α} {ns ms : List N} {content : α} {time : ℕ}

theorem fileAt_eq_some : a.fileAt ns = some (content, time) ↔ a ns = some (.file content time) := by
  unfold Archive.fileAt
  rcases a ns with _ | ⟨content', time'⟩ | _ <;> simp

theorem isFile_eq_isSome : a.isFile ns = (a.fileAt ns).isSome := by
  unfold Archive.isFile Archive.fileAt
  rcases a ns with _ | ⟨content', time'⟩ | _ <;> rfl

theorem open_empty (F D : List N → Prop) : Open F D (Archive.empty : Archive N α) where
  file _ _ h := by cases h
  above _ _ _ _ _ := rfl
  dir _ _ := rfl

theorem rooted_empty : Rooted (Archive.empty : Archive N α) := fun _ _ h => absurd rfl h

theorem eq_dir_or_none (h : a.isFile ns = false) : a ns = some .dir ∨ a ns = none := by
  unfold Archive.isFile at h
  rcases hns : a ns with _ | ⟨content, time⟩ | _
  · exact .inr rfl
  · rw [hns] at h
    cases h
  · exact .inl rfl

theorem ne_of_prefix_dropLast (hne : ms ≠ []) (h : ns <+: ms.dropLast) : ns ≠ ms := by
  rintro rfl
  have hle := h.length_le
  have hpos := List.length_pos_of_ne_nil hne
  rw [List.length_dropLast] at hle
  omega

theorem prefix_dropLast (h : ns <+: ms) (hne : ns ≠ ms) : ns <+: ms.dropLast := by
  rcases List.eq_nil_or_concat' ms with rfl | ⟨ks, k, rfl⟩
  · exact h
  · rw [List.dropLast_concat]
    exact (List.prefix_concat_iff.mp h).resolve_left hne

variable [DecidableEq N]

theorem fileAt_fill : (a.fill ms).fileAt ns = a.fileAt ns := by
  unfold Archive.fileAt Archive.fill
  split_ifs with h
  · rw [Option.isNone_iff_eq_none.mp h.2]
  · rfl

theorem write_self : (a.write ns content time) ns = some (.file content time) := if_pos rfl

theorem write_of_ne (h : ns ≠ ms) : (a.write ms content time) ns = a.fill ms.dropLast ns := if_neg h

theorem fileAt_write :
    (a.write ms content time).fileAt ns = if ns = ms then some (content, time)
    else a.fileAt ns := by
  by_cases h : ns = ms
  · rw [if_pos h, fileAt_eq_some, h, write_self]
  · have hfill : (a.fill ms.dropLast).fileAt ns = a.fileAt ns := fileAt_fill
    rw [if_neg h, ← hfill]
    unfold Archive.fileAt
    rw [write_of_ne h]

theorem isFile_fill : (a.fill ms).isFile ns = a.isFile ns := by
  rw [isFile_eq_isSome, fileAt_fill, isFile_eq_isSome]

theorem isFile_write (h : ns ≠ ms) : (a.write ms content time).isFile ns = a.isFile ns := by
  rw [isFile_eq_isSome, fileAt_write, if_neg h, isFile_eq_isSome]

theorem fill_eq_dir (h : a.fill ms ns = some .dir) : a ns = some .dir ∨ ns <+: ms := by
  unfold Archive.fill at h
  split_ifs at h with hns
  · exact .inr hns.1
  · exact .inl h

theorem fill_of_outside (h : ¬ ns <+: ms) : a.fill ms ns = a ns := if_neg fun hns => h hns.1

/-- Nothing changes but at a path and above it. -/
theorem write_of_outside (h : ¬ ns <+: ms) : (a.write ms content time) ns = a ns := by
  have hne : ns ≠ ms := by
    rintro rfl
    exact h List.prefix_rfl
  rw [write_of_ne hne]
  exact fill_of_outside fun hns => h (hns.trans (List.dropLast_prefix ms))

theorem clear_iff : a.clear ns = true ↔ ∀ ms, ms <+: ns → ms ≠ ns → a.isFile ms = false := by
  unfold Archive.clear
  rw [List.all_eq_true]
  refine forall_congr' fun ms => ?_
  rw [List.mem_inits, Bool.or_eq_true, decide_eq_true_eq, Bool.not_eq_true']
  exact imp_congr_right fun _ => or_iff_not_imp_left

variable {F D : List N → Prop}

theorem Open.clear (h : Open F D a) (hns : F ns ∨ D ns) : a.clear ns = true :=
  clear_iff.mpr fun ms hms hne => h.above ns ms hns hms hne

theorem Open.fill (hopen : Open F D a) (h : ∀ ns, F ns → ¬ ns <+: ms) : Open F D (a.fill ms) where
  file ns hns hdir := by
    rcases fill_eq_dir hdir with hdir | hpre
    · exact hopen.file ns hns hdir
    · exact h ns hns hpre
  above ns ks hns hks hne := by
    rw [isFile_fill]
    exact hopen.above ns ks hns hks hne
  dir ns hns := by
    rw [isFile_fill]
    exact hopen.dir ns hns

theorem mkdirs_eq (hclear : a.clear ms = true) (hfile : a.isFile ms = false) :
    a.mkdirs ms = a.fill ms := by
  unfold Archive.mkdirs
  rw [hclear, hfile]
  rfl

theorem Open.fill_dir (hlayout : Layout F D) (hopen : Open F D a) (hms : D ms) :
    Open F D (a.fill ms) := by
  refine hopen.fill fun ns hns hpre => ?_
  have hne := hlayout.above ns ms hns (.inr hms) hpre
  exact hlayout.disjoint ns hns (hne ▸ hms)

theorem Open.write (hlayout : Layout F D) (hopen : Open F D a) (hms : F ms) :
    Open F D (a.write ms content time) where
  file ns hns hdir := by
    by_cases heq : ns = ms
    · rw [heq, write_self] at hdir
      cases hdir
    · rw [write_of_ne heq] at hdir
      rcases fill_eq_dir hdir with hdir | hpre
      · exact hopen.file ns hns hdir
      · exact heq (hlayout.above ns ms hns (.inl hms) (hpre.trans (List.dropLast_prefix ms)))
  above ns ks hns hks hne := by
    have hne' : ks ≠ ms := by
      rintro rfl
      exact hne (hlayout.above ks ns hms hns hks)
    rw [isFile_write hne']
    exact hopen.above ns ks hns hks hne
  dir ns hns := by
    have hne : ns ≠ ms := by
      rintro rfl
      exact hlayout.disjoint ns hms hns
    rw [isFile_write hne]
    exact hopen.dir ns hns

theorem fill_of_dir (h : a ns = some .dir) : a.fill ms ns = some .dir := by
  unfold Archive.fill
  rw [h, if_neg (by simp)]

/-- Above a path without files there are directories once they are made. -/
theorem fill_of_above (h : a.isFile ns = false) (hns : ns <+: ms) : a.fill ms ns = some .dir := by
  rcases eq_dir_or_none h with hdir | hnone
  · exact fill_of_dir hdir
  · exact if_pos ⟨hns, by rw [hnone]; rfl⟩

theorem Rooted.fill (h : Rooted a) (hms : ∀ ns, ns <+: ms → a.isFile ns = false) :
    Rooted (a.fill ms) := by
  intro ns ks hns hks hne
  by_cases hpre : ns <+: ms
  · exact fill_of_above (hms ks (hks.trans hpre)) (hks.trans hpre)
  · rw [fill_of_outside hpre] at hns
    exact fill_of_dir (h ns ks hns hks hne)

theorem not_isFile_of_clear (h : a.clear ms = true) (hms : a.isFile ms = false) (ns : List N)
    (hns : ns <+: ms) :
    a.isFile ns = false := by
  by_cases heq : ns = ms
  · rw [heq, hms]
  · exact clear_iff.mp h ns hns heq

theorem Rooted.write (h : Rooted a) (hne : ms ≠ []) (hclear : a.clear ms = true)
    (hdir : a ms ≠ some .dir) :
    Rooted (a.write ms content time) := by
  have habove : ∀ ns, ns <+: ms.dropLast → a.isFile ns = false := fun ns hns =>
    clear_iff.mp hclear ns (hns.trans (List.dropLast_prefix ms)) (ne_of_prefix_dropLast hne hns)
  intro ns ks hns hks hneq
  by_cases hnsms : ns = ms
  · rw [hnsms] at hks hneq
    have hpre := prefix_dropLast hks hneq
    rw [write_of_ne hneq]
    exact fill_of_above (habove ks hpre) hpre
  · rw [write_of_ne hnsms] at hns
    have hksms : ks ≠ ms := by
      rintro rfl
      -- nothing is below the path of the file
      by_cases hpre : ns <+: ks.dropLast
      · exact hneq (hks.eq_of_length_le (hpre.trans (List.dropLast_prefix ks)).length_le)
      · rw [fill_of_outside hpre] at hns
        exact hdir (h ns ks hns hks hneq)
    rw [write_of_ne hksms]
    exact h.fill habove ns ks hns hks hneq

end Files

end ServeD.Lib.Archives
