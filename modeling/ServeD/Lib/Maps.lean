import Mathlib.Data.List.Basic

/-! # Maps made by insertion

A list of entries, inserted one after another into an ordered map: a later entry for a key
overwrites the earlier ones.

* `getElem?_insertAll`: what the map then has for a key is the value of the last entry for it, and
  what it had before if there is none. -/

namespace ServeD.Lib.Maps

variable {α β : Type*}

section

variable [Ord α] [Std.TransOrd α]

theorem mem_of_getElem? {m : Std.TreeMap α β} {k : α} {v : β} (h : m[k]? = some v) : k ∈ m := by
  rw [Std.TreeMap.mem_iff_isSome_getElem?, h]
  rfl

theorem exists_getElem? {m : Std.TreeMap α β} {k : α} (h : k ∈ m) : ∃ v, m[k]? = some v :=
  Option.isSome_iff_exists.mp (Std.TreeMap.mem_iff_isSome_getElem?.mp h)

end

variable [DecidableEq α]

/-- The value of the last entry for a key. -/
def lastValue (ps : List (α × β)) (k : α) : Option β := ps.reverse.lookup k

/-! ### The last value -/

@[simp] theorem lastValue_nil (k : α) : lastValue ([] : List (α × β)) k = none := rfl

theorem lastValue_cons (p : α × β) (ps : List (α × β)) (k : α) :
    lastValue (p :: ps) k = (lastValue ps k).or (if p.1 = k then some p.2 else none) := by
  obtain ⟨a, v⟩ := p
  unfold lastValue
  rw [List.reverse_cons, List.lookup_append, List.lookup_cons, List.lookup_nil]
  by_cases h : k = a
  · subst h; simp
  · have hb : (k == a) = false := by simpa using h
    simp [hb, Ne.symm h]

theorem lastValue_eq_none_iff {ps : List (α × β)} {k : α} :
    lastValue ps k = none ↔ ∀ p ∈ ps, p.1 ≠ k := by
  induction ps with
  | nil => simp
  | cons p ps ih =>
    rw [lastValue_cons, Option.or_eq_none_iff, ih]
    by_cases h : p.1 = k
    · simp [h]
    · simp [h]

/-- An entry's key has a value. -/
theorem exists_lastValue {ps : List (α × β)} {p : α × β} (hp : p ∈ ps) :
    ∃ v, lastValue ps p.1 = some v :=
  Option.ne_none_iff_exists'.mp fun h => lastValue_eq_none_iff.mp h p hp rfl

theorem mem_of_lastValue {ps : List (α × β)} {k : α} {v : β} (h : lastValue ps k = some v) :
    (k, v) ∈ ps := by
  induction ps with
  | nil => simp at h
  | cons p ps ih =>
    rw [lastValue_cons] at h
    rcases Option.or_eq_some_iff.mp h with h | ⟨-, h⟩
    · exact List.mem_cons_of_mem p (ih h)
    · split_ifs at h with hk
      obtain rfl := Option.some.inj h
      subst hk
      exact List.mem_cons_self

/-! ### Inserting a list -/

variable [Ord α]

/-- The entries, inserted in their order. -/
def insertAll (m : Std.TreeMap α β) (ps : List (α × β)) : Std.TreeMap α β :=
  ps.foldl (fun m p => m.insert p.1 p.2) m

variable [Std.TransOrd α] [Std.LawfulEqOrd α]

theorem getElem?_insertAll (m : Std.TreeMap α β) (ps : List (α × β)) (k : α) :
    (insertAll m ps)[k]? = (lastValue ps k).or m[k]? := by
  induction ps generalizing m with
  | nil => rfl
  | cons p ps ih =>
    have hm : (m.insert p.1 p.2)[k]? = (if p.1 = k then some p.2 else none).or m[k]? := by
      rw [Std.TreeMap.getElem?_insert]
      by_cases h : p.1 = k
      · simp [h]
      · simp [h]
    calc (insertAll m (p :: ps))[k]? = (insertAll (m.insert p.1 p.2) ps)[k]? := rfl
      _ = (lastValue ps k).or ((if p.1 = k then some p.2 else none).or m[k]?) := by rw [ih, hm]
      _ = (lastValue (p :: ps) k).or m[k]? := by rw [lastValue_cons, Option.or_assoc]

/-- A map made by inserting entries into the empty one. -/
theorem getElem?_insertAll_empty (ps : List (α × β)) (k : α) :
    (insertAll ∅ ps)[k]? = lastValue ps k := by
  rw [getElem?_insertAll, Std.TreeMap.getElem?_emptyc, Option.or_none]

theorem mem_insertAll {ps : List (α × β)} {k : α} :
    k ∈ insertAll (∅ : Std.TreeMap α β) ps ↔ ∃ p ∈ ps, p.1 = k := by
  constructor
  · intro h
    obtain ⟨v, hv⟩ := exists_getElem? h
    rw [getElem?_insertAll_empty] at hv
    exact ⟨(k, v), mem_of_lastValue hv, rfl⟩
  · rintro ⟨p, hp, rfl⟩
    obtain ⟨v, hv⟩ := exists_lastValue hp
    rw [← getElem?_insertAll_empty] at hv
    exact mem_of_getElem? hv

theorem forall_mem_insertAll {ps : List (α × β)} {P : α → Prop} :
    (∀ k ∈ insertAll (∅ : Std.TreeMap α β) ps, P k) ↔ ∀ p ∈ ps, P p.1 := by
  constructor
  · intro h p hp
    exact h p.1 (mem_insertAll.mpr ⟨p, hp, rfl⟩)
  · intro h k hk
    obtain ⟨p, hp, rfl⟩ := mem_insertAll.mp hk
    exact h p hp

theorem isEmpty_insertAll {ps : List (α × β)} (h : ps ≠ []) :
    (insertAll (∅ : Std.TreeMap α β) ps).isEmpty = false := by
  obtain ⟨p, hp⟩ := List.exists_mem_of_ne_nil ps h
  exact Std.TreeMap.isEmpty_eq_false_iff_exists_mem.mpr ⟨p.1, mem_insertAll.mpr ⟨p, hp, rfl⟩⟩

/-- The entries of a map, as a list. -/
theorem lastValue_toList (m : Std.TreeMap α β) (k : α) : lastValue m.toList k = m[k]? := by
  rcases h : lastValue m.toList k with _ | v
  · rcases hm : m[k]? with _ | v
    · rfl
    · have hmem : (k, v) ∈ m.toList := Std.TreeMap.mem_toList_iff_getElem?_eq_some.mpr hm
      exact absurd rfl (lastValue_eq_none_iff.mp h (k, v) hmem)
  · exact (Std.TreeMap.mem_toList_iff_getElem?_eq_some.mp (mem_of_lastValue h)).symm

end ServeD.Lib.Maps
