import Mathlib.Data.List.Basic
import Mathlib.Data.List.Nodup

/-! # An object database with sessions

Objects are instances on a heap: an address and the contents behind it. A database holds the
values of its last commit, and the session open on it sees a list of instances, in storage order;
these are the instances the session *knows*.

* `store` overwrites in place an instance the session knows and appends any other;
* `delete` removes an instance, by address;
* `commit` writes what the session sees; `reopen` starts a session on what was committed, with
  newly made instances (`load`).

`OnHeap heap os` ties the instances `os` to the heap: equal addresses, equal contents. Under it
storing a known instance changes nothing (`objects_store`). -/

namespace ServeD.Lib.ObjectStore

/-- An instance: its address and its contents. -/
structure Instance (T : Type) where
  ref : ℕ
  value : T
  deriving DecidableEq, Repr

/-- A database and the session open on it. -/
structure Odb (T : Type) where
  /-- The instances the session knows, in storage order. -/
  objects : List (Instance T)
  /-- The values in the file. -/
  committed : List T
  deriving DecidableEq, Repr

variable {T : Type}

/-- New instances of the values of a file, at the addresses from `next` on. -/
def load : ℕ → List T → List (Instance T)
  | _, [] => []
  | next, v :: vs => ⟨next, v⟩ :: load (next + 1) vs

namespace Odb

/-- The empty database. -/
def empty : Odb T := ⟨[], []⟩

/-- The session knows the instance: it has loaded or stored it. -/
def Knows (db : Odb T) (i : Instance T) : Prop := i.ref ∈ db.objects.map (·.ref)

instance (db : Odb T) (i : Instance T) : Decidable (db.Knows i) := by
  unfold Knows; infer_instance

def store (db : Odb T) (i : Instance T) : Odb T :=
  { db with
    objects :=
      if db.Knows i then db.objects.map fun o => if o.ref = i.ref then i else o
      else db.objects ++ [i] }

def delete (db : Odb T) (i : Instance T) : Odb T :=
  { db with objects := db.objects.filter fun o => o.ref ≠ i.ref }

def commit (db : Odb T) : Odb T := { db with committed := db.objects.map (·.value) }

def reopen (db : Odb T) (next : ℕ) : Odb T := { db with objects := load next db.committed }

/-- The objects that satisfy a predicate. -/
def getObjects (db : Odb T) (p : T → Bool) : List (Instance T) :=
  db.objects.filter fun o => p o.value

@[simp] theorem getObjects_empty (p : T → Bool) : (empty : Odb T).getObjects p = [] := rfl

@[simp] theorem getObjects_commit (db : Odb T) (p : T → Bool) :
    db.commit.getObjects p = db.getObjects p := rfl

theorem mem_getObjects {db : Odb T} {p : T → Bool} {o : Instance T} :
    o ∈ db.getObjects p ↔ o ∈ db.objects ∧ p o.value = true := by
  simp [getObjects]

end Odb

/-! ### Loaded instances -/

@[simp] theorem map_value_load : ∀ (next : ℕ) (vs : List T), (load next vs).map (·.value) = vs
  | _, [] => rfl
  | next, v :: vs => by simp [load, map_value_load (next + 1) vs]

theorem mem_load {o : Instance T} : ∀ {next : ℕ} {vs : List T},
    o ∈ load next vs ↔ next ≤ o.ref ∧ vs[o.ref - next]? = some o.value
  | next, [] => by simp [load]
  | next, v :: vs => by
    rw [load, List.mem_cons, mem_load]
    obtain ⟨r, w⟩ := o
    simp only [Instance.mk.injEq]
    rcases Nat.lt_trichotomy r next with h | rfl | h
    · constructor
      · rintro (⟨h', -⟩ | ⟨h', -⟩) <;> omega
      · rintro ⟨h', -⟩; omega
    · have hr : ¬ r + 1 ≤ r := by omega
      simp [hr, eq_comm]
    · obtain ⟨d, rfl⟩ : ∃ d, r = next + 1 + d := ⟨r - (next + 1), by omega⟩
      have h1 : next + 1 + d - (next + 1) = d := by omega
      have h2 : next + 1 + d - next = d + 1 := by omega
      rw [h1, h2, List.getElem?_cons_succ]
      constructor
      · rintro (⟨h', -⟩ | ⟨-, hv⟩)
        · omega
        · exact ⟨by omega, hv⟩
      · rintro ⟨-, hv⟩
        exact Or.inr ⟨by omega, hv⟩

theorem ref_lt_of_mem_load {o : Instance T} {next : ℕ} {vs : List T} (h : o ∈ load next vs) :
    o.ref < next + vs.length := by
  obtain ⟨h1, h2⟩ := mem_load.mp h
  have := (List.getElem?_eq_some_iff.mp h2).1
  omega

/-- A query on a loaded session answers with the values the file holds. -/
theorem map_value_filter_load (p : T → Bool) : ∀ (next : ℕ) (vs : List T),
    ((load next vs).filter fun o => p o.value).map (·.value) = vs.filter p
  | _, [] => rfl
  | next, v :: vs => by
    have ih := map_value_filter_load p (next + 1) vs
    rw [load, List.filter_cons, List.filter_cons]
    split_ifs <;> simp [ih]

/-! ### Instances on the heap -/

/-- The heap holds the contents of the instances `os` at their addresses. -/
def OnHeap (heap : List T) (os : List (Instance T)) : Prop :=
  ∀ o ∈ os, heap[o.ref]? = some o.value

theorem OnHeap.append_heap {heap : List T} {os : List (Instance T)} (h : OnHeap heap os)
    (vs : List T) : OnHeap (heap ++ vs) os := by
  intro o ho
  have hv := h o ho
  rw [List.getElem?_append_left (List.getElem?_eq_some_iff.mp hv).1]
  exact hv

theorem onHeap_load (heap vs rest : List T) :
    OnHeap (heap ++ vs ++ rest) (load heap.length vs) := by
  intro o ho
  obtain ⟨h1, h2⟩ := mem_load.mp ho
  have hlt := (List.getElem?_eq_some_iff.mp h2).1
  rw [List.append_assoc, List.getElem?_append_right h1, List.getElem?_append_left hlt]
  exact h2

/-- On one heap, an instance is known by its address. -/
theorem OnHeap.eq_of_ref {heap : List T} {os : List (Instance T)} (h : OnHeap heap os)
    {i o : Instance T} (hi : heap[i.ref]? = some i.value) (ho : o ∈ os) (hr : o.ref = i.ref) :
    o = i := by
  have hv := h o ho
  rw [hr, hi, Option.some.injEq] at hv
  obtain ⟨r, v⟩ := o
  subst hv
  subst hr
  rfl

namespace Odb

section OnHeap

variable {heap : List T} {db : Odb T} {i : Instance T}
variable (h : OnHeap heap db.objects) (hi : heap[i.ref]? = some i.value)
include h hi

theorem knows_iff : db.Knows i ↔ i ∈ db.objects := by
  constructor
  · intro hm
    obtain ⟨o, ho, hr⟩ := List.mem_map.mp hm
    rw [← h.eq_of_ref hi ho hr]
    exact ho
  · exact fun hm => List.mem_map_of_mem hm

/-- Overwriting a known instance in place leaves the session as it is; any other instance is
appended. -/
theorem objects_store :
    (db.store i).objects = db.objects ++ if db.Knows i then [] else [i] := by
  unfold store
  split_ifs with hk
  · rw [List.append_nil]
    refine (List.map_congr_left fun o ho => ?_).trans (List.map_id _)
    split_ifs with he
    · exact (h.eq_of_ref hi ho he).symm
    · rfl
  · rfl

theorem mem_store {o : Instance T} : o ∈ (db.store i).objects ↔ o ∈ db.objects ∨ o = i := by
  rw [objects_store h hi]
  split_ifs with hk
  · rw [List.append_nil]
    refine ⟨Or.inl, ?_⟩
    rintro (ho | rfl)
    · exact ho
    · exact (knows_iff h hi).mp hk
  · simp

theorem onHeap_store : OnHeap heap (db.store i).objects := by
  intro o ho
  rcases (mem_store h hi).mp ho with ho | rfl
  · exact h o ho
  · exact hi

/-- A query that `i` does not satisfy does not see it stored. -/
theorem getObjects_store_of_false {p : T → Bool} (hp : p i.value = false) :
    (db.store i).getObjects p = db.getObjects p := by
  unfold getObjects
  rw [objects_store h hi, List.filter_append]
  split_ifs <;> simp [hp]

theorem getObjects_store {p : T → Bool} (hp : p i.value = true) :
    (db.store i).getObjects p = db.getObjects p ++ if db.Knows i then [] else [i] := by
  unfold getObjects
  rw [objects_store h hi, List.filter_append]
  split_ifs <;> simp [hp]

/-- A query that `i` does not satisfy does not see it deleted. -/
theorem getObjects_delete_of_false {p : T → Bool} (hp : p i.value = false) :
    (db.delete i).getObjects p = db.getObjects p := by
  unfold getObjects delete
  rw [List.filter_filter]
  refine List.filter_congr fun o ho => ?_
  by_cases hr : o.ref = i.ref
  · rw [h.eq_of_ref hi ho hr, hp]; simp
  · simp [hr]

end OnHeap

theorem mem_delete {db : Odb T} {i o : Instance T} :
    o ∈ (db.delete i).objects ↔ o ∈ db.objects ∧ o.ref ≠ i.ref := by
  simp [delete]

theorem onHeap_delete {heap : List T} {db : Odb T} (h : OnHeap heap db.objects)
    (i : Instance T) : OnHeap heap (db.delete i).objects :=
  fun o ho => h o (mem_delete.mp ho).1

theorem getObjects_delete (db : Odb T) (i : Instance T) (p : T → Bool) :
    (db.delete i).getObjects p = (db.getObjects p).filter fun o => o.ref ≠ i.ref := by
  unfold getObjects delete
  rw [List.filter_filter, List.filter_filter]
  exact List.filter_congr fun o _ => Bool.and_comm _ _

end Odb

end ServeD.Lib.ObjectStore
