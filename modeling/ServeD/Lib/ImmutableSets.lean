import Mathlib.Data.List.Basic

/-! # Immutable sets of Scala 2.10

A set of at most four elements is one of `EmptySet`, `Set1`, ..., `Set4`, which compare elements by
`==` alone (`small`); a larger one is a `HashSet`, which compares the hash codes first (`hashed`),
and stays one when elements are removed. The list gives the elements in the order of insertion; a
`HashSet` iterates in another order. -/

namespace ServeD.Lib.ImmutableSets

/-- `hashCode` of a Java object. -/
class HashCode (α : Type) where
  hashCode : α → BitVec 32

inductive ImmutableSet (α : Type) where
  | small (elems : List α) (size_le : elems.length ≤ 4)
  | hashed (elems : List α)
  deriving DecidableEq

namespace ImmutableSet

variable {α : Type}

/-- `Set.empty`. -/
def empty : ImmutableSet α := .small [] (Nat.zero_le 4)

/-- `Set1`. -/
def set1 (x : α) : ImmutableSet α := .small [x] (Nat.le_add_left 1 3)

def elems : ImmutableSet α → List α
  | .small l _ => l
  | .hashed l => l

def size (s : ImmutableSet α) : ℕ := s.elems.length

/-- `find(p)`. -/
def find (s : ImmutableSet α) (p : α → Bool) : Option α := s.elems.find? p

variable [BEq α] [HashCode α]

/-- The test by which a set recognises the argument `x` in its element `a`. -/
def same (s : ImmutableSet α) (x a : α) : Bool :=
  match s with
  | .small _ _ => x == a
  | .hashed _ => HashCode.hashCode x == HashCode.hashCode a && x == a

def contains (s : ImmutableSet α) (x : α) : Bool := s.elems.any (s.same x)

/-- `HashSet.+`. -/
def insertHashed (l : List α) (x : α) : List α :=
  if (hashed l).contains x then l else l ++ [x]

omit [BEq α] [HashCode α] in
theorem length_concat_le {l : List α} {x : α} (h : l.length < 4) : (l ++ [x]).length ≤ 4 := by
  rw [List.length_append]; exact h

/-- `set + x`; the fifth element turns a `Set4` into a `HashSet`. -/
def insert (s : ImmutableSet α) (x : α) : ImmutableSet α :=
  match s with
  | .small l h =>
    if (small l h).contains x then small l h
    else if h4 : l.length < 4 then .small (l ++ [x]) (length_concat_le h4)
    else .hashed ((l ++ [x]).foldl insertHashed [])
  | .hashed l => .hashed (insertHashed l x)

/-- `set - x`. -/
def remove (s : ImmutableSet α) (x : α) : ImmutableSet α :=
  match s with
  | .small l h => .small (l.eraseP ((small l h).same x)) (Nat.le_trans List.length_eraseP_le h)
  | .hashed l => .hashed (l.eraseP ((hashed l).same x))

def subsetOf (s t : ImmutableSet α) : Bool := s.elems.all t.contains

/-- `==` of sets. -/
instance : BEq (ImmutableSet α) := ⟨fun s t => s.size == t.size && s.subsetOf t⟩

theorem beq_iff {s t : ImmutableSet α} :
    (s == t) = true ↔ s.size = t.size ∧ ∀ x ∈ s.elems, t.contains x = true := by
  simp only [BEq.beq, subsetOf, Bool.and_eq_true, List.all_eq_true, decide_eq_true_eq]

theorem beq_of_size_ne {s t : ImmutableSet α} (h : s.size ≠ t.size) : (s == t) = false := by
  rw [← Bool.not_eq_true, beq_iff]
  exact fun hb => h hb.1

/-- With reflexive elements a set equals itself, so the shortcut `this eq that` changes nothing. -/
instance [ReflBEq α] : ReflBEq (ImmutableSet α) where
  rfl {s} := by
    rw [beq_iff]
    refine ⟨rfl, fun x hx => ?_⟩
    rw [contains, List.any_eq_true]
    refine ⟨x, hx, ?_⟩
    cases s <;> simp [same]

/-! ### Elements that are all equal

Under an equality that identifies everything a set is empty or a `Set1`: `+` adds to the empty
set only, `-` empties every set. -/

section Identified

variable (hsame : ∀ x a : α, (x == a) = true)

omit hsame in
theorem insert_empty (x : α) : (empty : ImmutableSet α).insert x = set1 x := by
  simp [insert, empty, contains, elems, set1]

omit hsame in
theorem remove_empty (x : α) : (empty : ImmutableSet α).remove x = empty := rfl

include hsame

theorem insert_set1 (a x : α) : (set1 a).insert x = set1 a := by
  simp [insert, set1, contains, elems, same, hsame]

theorem remove_set1 (a x : α) : (set1 a).remove x = empty := by
  simp [remove, set1, same, hsame, empty]

end Identified

end ImmutableSet

end ServeD.Lib.ImmutableSets
