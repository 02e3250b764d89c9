import Mathlib.Data.List.DropRight
import ServeD.Lib.Texts

/-! # File trees

Directories as finite trees of named entries, without links, and their paths as texts: `pathText`
writes the names after slashes, `split` and `normalize` do what `String.split` and `java.io.File` do
with slashes.

* `has_delete_iff`: the files after one is deleted;
* `namesOf_pathText`, `pathText_inj`: the names are read back from their path;
* `normalize_of_clean`, `not_doubled_normalize`: a path without doubled and trailing slashes stays
  as it is, and any other becomes one. -/

namespace ServeD.Lib.FileTrees

open ServeD.Lib.Texts

/-! ### Trees -/

/-- A name of a file. -/
structure Name where
  text : Text
  ne_nil : text ≠ []
  noSlash : '/' ∉ text
  deriving DecidableEq

inductive Node where
  | file
  /-- a directory that cannot be listed -/
  | locked
  | dir (entries : List (Name × Node))

namespace Node

def isDirectory : Node → Bool
  | file => false
  | _ => true

def isFile : Node → Bool
  | file => true
  | _ => false

/-- What `delete` removes: a file or an empty directory. -/
def removable : Node → Bool
  | file => true
  | dir [] => true
  | _ => false

/-- The tree after the entry with these names is deleted, if it can be. -/
def delete : List Name → Node → Node
  | [n], dir es => dir (es.filter fun e => !(decide (e.1 = n) && e.2.removable))
  | n :: m :: ns, dir es => dir (es.map fun e => if e.1 = n then (e.1, e.2.delete (m :: ns)) else e)
  | _, t => t

end Node

/-- The tree has a node with these names on the way to it. -/
inductive Has : Node → List Name → Node → Prop where
  | here : Has t [] t
  | enter : (n, t) ∈ es → Has t ns c → Has (.dir es) (n :: ns) c

/-- Every directory can be listed. -/
def Readable (t : Node) : Prop := ∀ ns, ¬ Has t ns .locked

section Has

variable {t c : Node} {n : Name} {ns ms : List Name} {es : List (Name × Node)}

theorem has_nil : Has t [] c ↔ c = t := by
  constructor
  · rintro ⟨⟩
    rfl
  · rintro rfl
    exact .here

theorem has_dir : Has (.dir es) (n :: ns) c ↔ ∃ t, (n, t) ∈ es ∧ Has t ns c := by
  constructor
  · rintro (_ | ⟨hmem, h⟩)
    exact ⟨_, hmem, h⟩
  · rintro ⟨t, hmem, h⟩
    exact .enter hmem h

theorem not_has_file : ¬ Has .file (n :: ns) c := by
  rintro ⟨⟩

theorem not_has_locked : ¬ Has .locked (n :: ns) c := by
  rintro ⟨⟩

/-- The last name is one of an entry. -/
theorem has_concat : Has t (ns ++ [n]) c ↔ ∃ es, Has t ns (.dir es) ∧ (n, c) ∈ es := by
  induction ns generalizing t with
  | nil =>
    rw [List.nil_append]
    constructor
    · rintro (_ | ⟨hmem, h⟩)
      obtain rfl := has_nil.mp h
      exact ⟨_, .here, hmem⟩
    · rintro ⟨es, h, hmem⟩
      obtain rfl := has_nil.mp h
      exact .enter hmem .here
  | cons m ns ih =>
    rw [List.cons_append]
    constructor
    · rintro (_ | ⟨hmem, h⟩)
      obtain ⟨es, hes, hn⟩ := ih.mp h
      exact ⟨es, .enter hmem hes, hn⟩
    · rintro ⟨es, (_ | ⟨hmem, h⟩), hn⟩
      exact .enter hmem (ih.mpr ⟨es, h, hn⟩)

/-- A removable node has no files below it. -/
theorem eq_nil_of_removable (h : c.removable = true) (hfile : Has c ms .file) : ms = [] := by
  rcases ms with _ | ⟨m, ms⟩
  · rfl
  · rcases c with _ | _ | es
    · exact absurd hfile not_has_file
    · cases h
    · rcases es with _ | ⟨e, es⟩
      · obtain ⟨t, hmem, -⟩ := has_dir.mp hfile
        cases hmem
      · cases h

/-- The entry is in a directory. -/
theorem has_delete_one : Has ((Node.dir es).delete [n]) ms .file ↔
    Has (.dir es) ms .file ∧ ms ≠ [n] := by
  rcases ms with _ | ⟨m, ms⟩
  · rw [Node.delete, has_nil, has_nil]
    simp
  · rw [Node.delete, has_dir, has_dir]
    constructor
    · rintro ⟨t, hmem, hfile⟩
      obtain ⟨hes, hkeep⟩ := List.mem_filter.mp hmem
      refine ⟨⟨t, hes, hfile⟩, ?_⟩
      rintro heq
      obtain ⟨rfl, rfl⟩ := List.cons.inj heq
      obtain rfl := has_nil.mp hfile
      simp [Node.removable] at hkeep
    · rintro ⟨⟨t, hes, hfile⟩, hne⟩
      refine ⟨t, List.mem_filter.mpr ⟨hes, ?_⟩, hfile⟩
      rw [Bool.not_eq_true', Bool.and_eq_false_iff]
      by_cases hr : t.removable = true
      · obtain rfl := eq_nil_of_removable hr hfile
        refine .inl (decide_eq_false ?_)
        rintro rfl
        exact hne rfl
      · exact .inr (Bool.not_eq_true _ ▸ hr)

/-- A node that is not a directory stays, and it has no entries. -/
theorem has_delete_leaf (hns : ns ≠ []) (hdelete : t.delete ns = t)
    (hleaf : ∀ m ms, ¬ Has t (m :: ms) .file) :
    Has (t.delete ns) ms .file ↔ Has t ms .file ∧ ms ≠ ns := by
  rw [hdelete]
  refine ⟨fun h => ⟨h, ?_⟩, And.left⟩
  rintro rfl
  obtain ⟨m, ms, rfl⟩ := List.exists_cons_of_ne_nil hns
  exact hleaf m ms h

/-- Deleting an entry takes it from the files and nothing else. -/
theorem has_delete_iff (hns : ns ≠ []) : Has (t.delete ns) ms .file ↔ Has t ms .file ∧ ms ≠ ns := by
  induction ns generalizing t ms with
  | nil => exact absurd rfl hns
  | cons n ns ih =>
    rcases t with _ | _ | es
    · exact has_delete_leaf hns (by cases ns <;> rfl) fun _ _ => not_has_file
    · exact has_delete_leaf hns (by cases ns <;> rfl) fun _ _ => not_has_locked
    · rcases ns with _ | ⟨n', ns⟩
      · exact has_delete_one
      · rcases ms with _ | ⟨m, ms⟩
        · rw [Node.delete, has_nil, has_nil]
          simp
        · rw [Node.delete, has_dir, has_dir]
          constructor
          · rintro ⟨t, hmem, hfile⟩
            obtain ⟨⟨k, t'⟩, hes, heq⟩ := List.mem_map.mp hmem
            split_ifs at heq with hk
            · obtain ⟨rfl, rfl⟩ := Prod.mk.inj heq
              obtain ⟨hfile', hne⟩ := (ih (List.cons_ne_nil n' ns)).mp hfile
              exact ⟨⟨t', hes, hfile'⟩, fun h => hne (List.cons.inj h).2⟩
            · obtain ⟨rfl, rfl⟩ := Prod.mk.inj heq
              exact ⟨⟨t', hes, hfile⟩, fun h => hk (List.cons.inj h).1⟩
          · rintro ⟨⟨t, hes, hfile⟩, hne⟩
            by_cases hk : m = n
            · subst hk
              refine ⟨t.delete (n' :: ns), List.mem_map.mpr ⟨(m, t), hes, if_pos rfl⟩, ?_⟩
              exact (ih (List.cons_ne_nil n' ns)).mpr ⟨hfile, fun h => hne (h ▸ rfl)⟩
            · exact ⟨t, List.mem_map.mpr ⟨(m, t), hes, if_neg hk⟩, hfile⟩

end Has

/-! ### Paths as texts -/

/-- The names after slashes. -/
def pathText (ns : List Name) : Text := ns.flatMap fun n => '/' :: n.text

/-- The words between slashes, after the beginning `w` of the first one. -/
def wordsFrom : Text → Text → List Text
  | w, [] => [w]
  | w, c :: s => if c = '/' then w :: wordsFrom [] s else wordsFrom (w ++ [c]) s

/-- `s.split("/")`, which drops empty words at the end. -/
def split (s : Text) : List Text := if s = [] then [[]] else (wordsFrom [] s).rdropWhile (·.isEmpty)

def toName (w : Text) : Option Name := if h : w ≠ [] ∧ '/' ∉ w then some ⟨w, h.1, h.2⟩ else none

/-- The names in a path. -/
def namesOf (s : Text) : List Name := (wordsFrom [] s).filterMap toName

/-- There are two slashes one after the other. -/
def Doubled (s : Text) : Prop := ∃ k : ℕ, s[k]? = some '/' ∧ s[k + 1]? = some '/'

/-- One slash for several. -/
def squeeze : Text → Text
  | '/' :: '/' :: s => squeeze ('/' :: s)
  | c :: s => c :: squeeze s
  | [] => []

/-- `new File(s).getPath`. -/
def normalize (s : Text) : Text :=
  if squeeze s = ['/'] then ['/']
  else if (squeeze s).getLast? = some '/' then (squeeze s).dropLast
  else squeeze s

/-- The path has a name to it. -/
def HasName (s : Text) : Prop := s = [] ∨ ∃ c ∈ s, c ≠ '/'

section Words

variable {w w' s : Text} {n : Name} {ns ms : List Name}

theorem toName_text (n : Name) : toName n.text = some n := dif_pos ⟨n.ne_nil, n.noSlash⟩

theorem pathText_cons : pathText (n :: ns) = '/' :: (n.text ++ pathText ns) := rfl

theorem pathText_append : pathText (ns ++ ms) = pathText ns ++ pathText ms := List.flatMap_append

theorem wordsFrom_append {x : Text} (hx : '/' ∉ x) :
    wordsFrom w (x ++ s) = wordsFrom (w ++ x) s := by
  induction x generalizing w with
  | nil => rw [List.append_nil, List.nil_append]
  | cons c x ih =>
    obtain ⟨hc, hx⟩ : '/' ≠ c ∧ '/' ∉ x := by simpa using hx
    rw [List.cons_append, wordsFrom, if_neg (Ne.symm hc), ih hx, List.append_assoc,
      List.singleton_append]

theorem wordsFrom_pathText (n : Name) (ns : List Name) :
    wordsFrom n.text (pathText ns) = (n :: ns).map Name.text := by
  induction ns generalizing n with
  | nil => rfl
  | cons m ns ih =>
    rw [pathText_cons, wordsFrom, if_pos rfl, wordsFrom_append m.noSlash, List.nil_append, ih]
    rfl

theorem namesOf_pathText (ns : List Name) : namesOf (pathText ns) = ns := by
  have hnames : ∀ ns : List Name, (ns.map Name.text).filterMap toName = ns := by
    intro ns
    rw [List.filterMap_map]
    exact (List.filterMap_congr fun n _ => toName_text n).trans List.filterMap_some
  rcases ns with _ | ⟨n, ns⟩
  · rfl
  · rw [namesOf, pathText_cons, wordsFrom, if_pos rfl, wordsFrom_append n.noSlash, List.nil_append,
      wordsFrom_pathText, List.filterMap_cons]
    exact hnames (n :: ns)

theorem pathText_inj (h : pathText ns = pathText ms) : ns = ms := by
  rw [← namesOf_pathText ns, h, namesOf_pathText]

theorem mem_wordsFrom (hw : '/' ∉ w) (h : w' ∈ wordsFrom w s) :
    '/' ∉ w' ∧ ∀ c ∈ w', c ∈ w ∨ c ∈ s := by
  induction s generalizing w with
  | nil =>
    obtain rfl := List.mem_singleton.mp h
    exact ⟨hw, fun c hc => .inl hc⟩
  | cons d s ih =>
    rw [wordsFrom] at h
    split_ifs at h with hd
    · rcases List.mem_cons.mp h with rfl | h
      · exact ⟨hw, fun c hc => .inl hc⟩
      · obtain ⟨hslash, hmem⟩ := ih List.not_mem_nil h
        exact ⟨hslash, fun c hc => .inr (List.mem_cons_of_mem d
          ((hmem c hc).resolve_left List.not_mem_nil))⟩
    · have hwd : '/' ∉ w ++ [d] := by simp [hw, Ne.symm hd]
      obtain ⟨hslash, hmem⟩ := ih hwd h
      refine ⟨hslash, fun c hc => ?_⟩
      rcases hmem c hc with hc | hc
      · rcases List.mem_append.mp hc with hc | hc
        · exact .inl hc
        · exact .inr (List.mem_singleton.mp hc ▸ List.mem_cons_self)
      · exact .inr (List.mem_cons_of_mem d hc)

/-- There is a word that is not empty if there is a character other than a slash. -/
theorem exists_word (h : w ≠ [] ∨ ∃ c ∈ s, c ≠ '/') : ∃ w' ∈ wordsFrom w s, w' ≠ [] := by
  induction s generalizing w with
  | nil =>
    refine ⟨w, List.mem_singleton_self w, h.resolve_right ?_⟩
    rintro ⟨c, hc, -⟩
    cases hc
  | cons d s ih =>
    rw [wordsFrom]
    split_ifs with hd
    · rcases h with hw | ⟨c, hc, hne⟩
      · exact ⟨w, List.mem_cons_self, hw⟩
      · have hcs : c ∈ s := (List.mem_cons.mp hc).resolve_left fun heq => hne (heq.trans hd)
        obtain ⟨w', hw', hne'⟩ := ih (w := []) (.inr ⟨c, hcs, hne⟩)
        exact ⟨w', List.mem_cons_of_mem w hw', hne'⟩
    · exact ih (.inl (by simp))

/-- The last word of a path with a name. -/
theorem getLast?_split (h : HasName s) : ∃ w, (split s).getLast? = some w ∧ '/' ∉ w ∧
    ∀ c ∈ w, c ∈ s := by
  rcases h with rfl | hname
  · exact ⟨[], rfl, List.not_mem_nil, fun c hc => absurd hc List.not_mem_nil⟩
  · obtain ⟨w', hw', hne⟩ := exists_word (w := []) (.inr hname)
    obtain ⟨c, hc, -⟩ := hname
    have hsplit : split s = (wordsFrom [] s).rdropWhile (·.isEmpty) :=
      if_neg (List.ne_nil_of_mem hc)
    have hnil : split s ≠ [] := by
      rw [hsplit, Ne, List.rdropWhile_eq_nil_iff]
      intro hall
      exact hne (List.isEmpty_iff.mp (hall w' hw'))
    refine ⟨(split s).getLast hnil, List.getLast?_eq_some_getLast hnil, ?_⟩
    have hmem : (split s).getLast hnil ∈ wordsFrom [] s := by
      refine (List.rdropWhile_prefix (fun w : Text => w.isEmpty) (wordsFrom [] s)).subset ?_
      rw [← hsplit]
      exact List.getLast_mem hnil
    obtain ⟨hslash, hchars⟩ := mem_wordsFrom List.not_mem_nil hmem
    exact ⟨hslash, fun c hc => (hchars c hc).resolve_left List.not_mem_nil⟩

/-- There is no last word in a path without a name. -/
theorem split_eq_nil (h : ¬ HasName s) : split s = [] := by
  obtain ⟨hs, hall⟩ := not_or.mp h
  rw [split, if_neg hs, List.rdropWhile_eq_nil_iff]
  intro w hw
  obtain ⟨hslash, hchars⟩ := mem_wordsFrom List.not_mem_nil hw
  rcases w with _ | ⟨c, w⟩
  · rfl
  · have hc := (hchars c List.mem_cons_self).resolve_left List.not_mem_nil
    refine absurd ⟨c, hc, ?_⟩ hall
    rintro rfl
    exact hslash List.mem_cons_self

end Words

/-! ### Slashes -/

section Slashes

variable {s t : Text} {c : Char}

theorem doubled_cons : Doubled (c :: s) ↔ (c = '/' ∧ s.head? = some '/') ∨ Doubled s := by
  constructor
  · rintro ⟨k, h₁, h₂⟩
    rcases k with _ | k
    · refine .inl ⟨by simpa using h₁, ?_⟩
      rwa [List.head?_eq_getElem?]
    · exact .inr ⟨k, h₁, h₂⟩
  · rintro (⟨rfl, h⟩ | ⟨k, h₁, h₂⟩)
    · refine ⟨0, rfl, ?_⟩
      rwa [List.head?_eq_getElem?] at h
    · exact ⟨k + 1, h₁, h₂⟩

theorem not_doubled_nil : ¬ Doubled [] := by
  rintro ⟨k, h, -⟩
  cases h

instance decidableDoubled : (s : Text) → Decidable (Doubled s)
  | [] => .isFalse not_doubled_nil
  | _ :: s =>
    have := decidableDoubled s
    decidable_of_iff _ doubled_cons.symm

theorem Doubled.of_append_left (h : Doubled s) : Doubled (s ++ t) := by
  obtain ⟨k, h₁, h₂⟩ := h
  have hlt := (List.getElem?_eq_some_iff.mp h₂).1
  refine ⟨k, ?_, ?_⟩
  · rwa [List.getElem?_append_left (by omega)]
  · rwa [List.getElem?_append_left hlt]

theorem Doubled.of_append_right (h : Doubled t) : Doubled (s ++ t) := by
  induction s with
  | nil => exact h
  | cons c s ih => exact doubled_cons.mpr (.inr ih)

theorem not_doubled_append (hs : ¬ Doubled s) (ht : ¬ Doubled t) (hlast : s.getLast? ≠ some '/') :
    ¬ Doubled (s ++ t) := by
  induction s with
  | nil => exact ht
  | cons c s ih =>
    rw [List.cons_append, doubled_cons]
    rw [doubled_cons, not_or] at hs
    rcases s with _ | ⟨d, s⟩
    · rintro (⟨rfl, -⟩ | h)
      · exact hlast rfl
      · exact ht h
    · rintro (h | h)
      · exact hs.1 h
      · exact ih hs.2 (by rwa [List.getLast?_cons_cons] at hlast) h

theorem head?_squeeze (s : Text) : (squeeze s).head? = s.head? := by
  fun_induction squeeze s with
  | case1 s ih => exact ih
  | case2 c s hs ih => rfl
  | case3 => rfl

theorem not_doubled_squeeze (s : Text) : ¬ Doubled (squeeze s) := by
  fun_induction squeeze s with
  | case1 s ih => exact ih
  | case2 c s hs ih =>
    rw [doubled_cons, head?_squeeze]
    rintro (⟨rfl, hhead⟩ | h)
    · obtain ⟨t, rfl⟩ := List.head?_eq_some_iff.mp hhead
      exact hs t rfl rfl
    · exact ih h
  | case3 => exact not_doubled_nil

theorem squeeze_eq (h : ¬ Doubled s) : squeeze s = s := by
  fun_induction squeeze s with
  | case1 s ih => exact absurd (doubled_cons.mpr (.inl ⟨rfl, rfl⟩)) h
  | case2 c s hs ih => rw [ih fun hd => h (doubled_cons.mpr (.inr hd))]
  | case3 => rfl

theorem mem_squeeze (h : c ∈ s) : c ∈ squeeze s := by
  fun_induction squeeze s with
  | case1 s ih =>
    refine ih ?_
    rcases List.mem_cons.mp h with rfl | h
    · exact List.mem_cons_self
    · exact h
  | case2 d s hs ih =>
    rcases List.mem_cons.mp h with rfl | h
    · exact List.mem_cons_self
    · exact List.mem_cons_of_mem d (ih h)
  | case3 => exact h

/-- Without doubled and trailing slashes a path stays as it is. -/
theorem normalize_of_clean (h : ¬ Doubled s) (hlast : s.getLast? ≠ some '/') : normalize s = s := by
  have hslash : s ≠ ['/'] := by
    rintro rfl
    exact hlast rfl
  rw [normalize, squeeze_eq h, if_neg hslash, if_neg hlast]

/-- A slash at the end is dropped. -/
theorem normalize_slash (h : ¬ Doubled (s ++ ['/'])) (hs : s ≠ []) :
    normalize (s ++ ['/']) = s := by
  have hslash : s ++ ['/'] ≠ ['/'] := by simpa using hs
  rw [normalize, squeeze_eq h, if_neg hslash, if_pos (by simp), List.dropLast_concat]

theorem not_doubled_normalize (s : Text) : ¬ Doubled (normalize s) := by
  have hsqueeze := not_doubled_squeeze s
  rw [normalize]
  split_ifs with hslash hlast
  · rwa [hslash] at hsqueeze
  · intro h
    obtain ⟨t, ht⟩ := List.dropLast_prefix (squeeze s)
    exact hsqueeze (ht ▸ h.of_append_left)
  · exact hsqueeze

/-- A path with a name does not end with a slash. -/
theorem getLast?_normalize (h : HasName s) : (normalize s).getLast? ≠ some '/' := by
  rcases h with rfl | ⟨c, hc, hne⟩
  · simp [normalize, squeeze]
  · have hmem := mem_squeeze hc
    have hdouble := not_doubled_squeeze s
    rw [normalize]
    split_ifs with hslash hlast
    · rw [hslash, List.mem_singleton] at hmem
      exact absurd hmem hne
    · obtain ⟨t, ht⟩ := List.getLast?_eq_some_iff.mp hlast
      rw [ht, List.dropLast_concat]
      intro hlast'
      obtain ⟨r, rfl⟩ := List.getLast?_eq_some_iff.mp hlast'
      rw [ht, List.append_assoc] at hdouble
      exact hdouble (Doubled.of_append_right (doubled_cons.mpr (.inl ⟨rfl, rfl⟩)))
    · exact hlast

theorem not_doubled_of_noSlash (h : '/' ∉ s) : ¬ Doubled s := by
  rintro ⟨k, hk, -⟩
  exact h (List.mem_of_getElem? hk)

theorem not_doubled_pathText (ns : List Name) : ¬ Doubled (pathText ns) := by
  induction ns with
  | nil => exact not_doubled_nil
  | cons n ns ih =>
    have hlast : n.text.getLast? ≠ some '/' := fun h => n.noSlash (List.mem_of_getLast? h)
    have htext := not_doubled_append (not_doubled_of_noSlash n.noSlash) ih hlast
    rw [pathText_cons, doubled_cons]
    rintro (⟨-, hhead⟩ | h)
    · obtain ⟨c, t, ht⟩ := List.exists_cons_of_ne_nil n.ne_nil
      rw [ht, List.cons_append, List.head?_cons, Option.some_inj] at hhead
      exact n.noSlash (ht ▸ hhead ▸ List.mem_cons_self)
    · exact htext h

theorem getLast?_pathText (ns : List Name) : (pathText ns).getLast? ≠ some '/' := by
  rcases List.eq_nil_or_concat' ns with rfl | ⟨ns, n, rfl⟩
  · simp [pathText]
  · have hone : pathText [n] = '/' :: n.text := by
      rw [pathText_cons, pathText, List.flatMap_nil, List.append_nil]
    obtain ⟨c, t, ht⟩ := List.exists_cons_of_ne_nil n.ne_nil
    rw [pathText_append, hone, List.getLast?_append_cons, ht, List.getLast?_cons_cons]
    exact fun h => n.noSlash (ht ▸ List.mem_of_getLast? h)

theorem normalize_pathText (ns : List Name) : normalize (pathText ns) = pathText ns :=
  normalize_of_clean (not_doubled_pathText ns) (getLast?_pathText ns)

end Slashes

end ServeD.Lib.FileTrees
