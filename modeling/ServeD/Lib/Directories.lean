import Mathlib.Data.List.Infix

/-! # Directories

A directory is given by the names on the way to it from the root, a file system by the directories
that it has (no links). A path as a string is walked name by name: `.` and empty names stay, `..`
goes up.

* `mem_mkdirs`, `mem_rm_r`, `Closed`: the directories after one is made with its parents, or removed
  with all that lies in it;
* `endsIn_resolve`: the directory that a path with a suffix leads to carries the suffix in its name;
* `resolve_join`: a plain name after a slash is the last name of the directory. -/

namespace ServeD.Lib.Directories

/-- The names from the root. -/
abbrev Path := List (List Char)

/-- One name further. -/
def enter (p : Path) (w : List Char) : Path :=
  if w = [] ∨ w = ['.'] then p else if w = ['.', '.'] then p.dropLast else p ++ [w]

/-- From `p`, with the part `w` of a name already read. -/
def walk (p : Path) (w : List Char) : List Char → Path
  | [] => enter p w
  | c :: cs => if c = '/' then walk (enter p w) [] cs else walk p (w ++ [c]) cs

/-- The directory that a path from the root leads to. -/
def resolve (path : List Char) : Path := walk [] [] path

/-- The directory and its parents exist afterwards. -/
def mkdirs (dirs : List Path) (p : Path) : List Path := dirs ++ p.inits

/-- The directory is removed with all that lies in it. -/
def rm_r (dirs : List Path) (p : Path) : List Path := dirs.filter fun q => !p.isPrefixOf q

/-- The name of the directory ends in `suf`. -/
def EndsIn (suf : List Char) (p : Path) : Prop := p.getLast?.any suf.isSuffixOf = true

instance (suf : List Char) (p : Path) : Decidable (EndsIn suf p) :=
  inferInstanceAs (Decidable (_ = true))

/-- The parents of a directory exist. -/
def Closed (dirs : List Path) : Prop := ∀ p ∈ dirs, ∀ q, q <+: p → q ∈ dirs

section Trees

variable {dirs : List Path} {p q : Path}

@[simp] theorem mem_mkdirs : q ∈ mkdirs dirs p ↔ q ∈ dirs ∨ q <+: p := by
  unfold mkdirs
  rw [List.mem_append, List.mem_inits]

@[simp] theorem mem_rm_r : q ∈ rm_r dirs p ↔ q ∈ dirs ∧ ¬ p <+: q := by
  unfold rm_r
  rw [List.mem_filter, Bool.not_eq_true', ← Bool.not_eq_true, List.isPrefixOf_iff_prefix]

theorem Closed.mkdirs (h : Closed dirs) (p : Path) : Closed (mkdirs dirs p) := by
  intro q hq r hr
  rw [mem_mkdirs] at hq ⊢
  exact hq.imp (fun hq => h q hq r hr) fun hq => hr.trans hq

theorem Closed.rm_r (h : Closed dirs) (p : Path) : Closed (rm_r dirs p) := by
  intro q hq r hr
  rw [mem_rm_r] at hq ⊢
  exact ⟨h q hq.1 r hr, fun hp => hq.2 (hp.trans hr)⟩

end Trees

section Walk

variable {suf : List Char}

theorem enter_name {w : List Char} (p : Path) (hw : ∃ c ∈ w, c ≠ '.') : enter p w = p ++ [w] := by
  obtain ⟨c, hc, hdot⟩ := hw
  have h1 : ¬ (w = [] ∨ w = ['.']) := by
    rintro (rfl | rfl)
    · cases hc
    · exact hdot (List.mem_singleton.mp hc)
  have h2 : w ≠ ['.', '.'] := by
    rintro rfl
    exact hdot (by simpa using hc)
  rw [enter, if_neg h1, if_neg h2]

/-- What is left of a path without a slash is the rest of the name. -/
theorem walk_name : ∀ (cs : List Char) (p : Path) (w : List Char), '/' ∉ cs →
    walk p w cs = enter p (w ++ cs)
  | [], p, w, _ => by rw [walk, List.append_nil]
  | c :: cs, p, w, h => by
    rw [walk, if_neg fun hc => h (by simp [hc]), walk_name cs p (w ++ [c]) fun hc =>
      h (by simp [hc])]
    simp

/-- A path with a suffix ends in a name with the suffix. -/
theorem walk_append (hs : '/' ∉ suf) : ∀ (cs : List Char) (p : Path) (w : List Char),
    ∃ p' w', walk p w (cs ++ suf) = enter p' (w' ++ suf)
  | [], p, w => ⟨p, w, walk_name suf p w hs⟩
  | c :: cs, p, w => by
    rw [List.cons_append, walk]
    split_ifs with hc
    · exact walk_append hs cs (enter p w) []
    · exact walk_append hs cs p (w ++ [c])

theorem endsIn_resolve (hs : '/' ∉ suf) (hn : ∃ c ∈ suf, c ≠ '.') (cs : List Char) :
    EndsIn suf (resolve (cs ++ suf)) := by
  obtain ⟨p, w, h⟩ := walk_append hs cs [] []
  obtain ⟨c, hc, hdot⟩ := hn
  rw [resolve, h, enter_name p ⟨c, List.mem_append_right w hc, hdot⟩]
  simp [EndsIn]

theorem walk_slash : ∀ (cs rest : List Char) (p : Path) (w : List Char),
    walk p w (cs ++ '/' :: rest) = walk (walk p w cs) [] rest
  | [], rest, p, w => by simp only [List.nil_append, walk, if_true]
  | c :: cs, rest, p, w => by
    rw [List.cons_append, walk, walk]
    split_ifs with hc
    · exact walk_slash cs rest (enter p w) []
    · exact walk_slash cs rest p (w ++ [c])

/-- A plain name after a slash. -/
theorem resolve_join {name : List Char} (hs : '/' ∉ name) (hn : ∃ c ∈ name, c ≠ '.')
    (cs : List Char) :
    resolve (cs ++ '/' :: name) = resolve cs ++ [name] := by
  rw [resolve, walk_slash, walk_name name _ [] hs, List.nil_append, enter_name _ hn]
  rfl

end Walk

end ServeD.Lib.Directories
