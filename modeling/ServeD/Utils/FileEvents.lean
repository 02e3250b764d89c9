import Mathlib.Data.List.AList
import Mathlib.Data.Finset.Insert
import ServeD.Lib.Runs

/-! # The file events manager

`SvdFileEventsManager` of `SvdFileEventsManager.scala`: a map from descriptors to a path and the
registrations on it, in the order in which they came. The state keeps beside it what the kernel
knows: the descriptors that `registerNewFileEvent` has opened (nothing in the class closes one) and
the mask of the vnode filter of each descriptor in the manager's kqueue, which is the mask of the
last `kevent` call with `EV_ADD`.

The answers of `open` and `kevent` come from outside (`Sys`). An exception that leaves `receive`
makes the supervisor replace the actor (`restart`): the new instance has an empty map and a kqueue
of its own. The order in which a `HashMap` is visited is not used: results are stated by `lookup`.
-/

namespace ServeD.Utils.FileEvents

open ServeD.Lib.Runs

/-! ### Masks -/

/-- The type `Int` of the JVM, as a set of bits. -/
abbrev Flags := BitVec 32

def noteDelete : Flags := 0x01
def noteWrite : Flags := 0x02
def noteExtend : Flags := 0x04
def noteAttrib : Flags := 0x08
def noteLink : Flags := 0x10
def noteRename : Flags := 0x20
def noteRevoke : Flags := 0x40
def noteNone : Flags := 0x80

/-- All of the `NOTE_*` bits. -/
def noteBits : Flags :=
  noteDelete ||| noteWrite ||| noteExtend ||| noteAttrib ||| noteLink ||| noteRename |||
    noteRevoke ||| noteNone

/-- A mask made of `NOTE_*` bits. -/
def NoteMask (f : Flags) : Prop := f &&& noteBits = f

instance : DecidablePred NoteMask := fun f => inferInstanceAs (Decidable (f &&& noteBits = f))

/-- The test `(fl & flags) > 0` of signed numbers. -/
def forwards (fl flags : Flags) : Bool := 0 < (fl &&& flags).toInt

/-- Two masks share a bit. -/
def Intersects (f g : Flags) : Prop := f &&& g ≠ 0

instance (f g : Flags) : Decidable (Intersects f g) := inferInstanceAs (Decidable (_ ≠ _))

theorem toNat_lt_of_noteMask {f : Flags} (h : NoteMask f) (g : Flags) : (f &&& g).toNat < 256 := by
  have hb : noteBits.toNat = 2 ^ 8 - 1 := by decide
  have hf : f.toNat < 2 ^ 8 := by
    have h1 : f.toNat = f.toNat &&& noteBits.toNat := by rw [← BitVec.toNat_and, h]
    rw [h1, hb, Nat.and_two_pow_sub_one_eq_mod]
    exact Nat.mod_lt _ (by decide)
  rw [BitVec.toNat_and]
  exact lt_of_le_of_lt Nat.and_le_left hf

/-- On masks of `NOTE_*` bits the manager's test is intersection. -/
theorem forwards_iff {f : Flags} (h : NoteMask f) (g : Flags) :
    forwards f g = true ↔ Intersects f g := by
  have hlt := toNat_lt_of_noteMask h g
  have hi : (f &&& g).toInt = (f &&& g).toNat := by
    rw [BitVec.toInt_eq_toNat_cond, if_pos (by omega)]
  unfold forwards Intersects
  rw [decide_eq_true_eq, hi, Ne, ← BitVec.toNat_inj]
  show 0 < ((f &&& g).toNat : ℤ) ↔ ¬ (f &&& g).toNat = 0
  omega

/-! ### State and messages -/

variable {A : Type} [DecidableEq A]

/-- `ActorRefList`: registrations, each with its flags and the actor to be told. -/
abbrev ActorRefList (A : Type) := List (Flags × A)

/-- `IdentsMap`. -/
abbrev IdentsMap (A : Type) := AList fun _ : ℤ => String × ActorRefList A

/-- The manager, with its part of the kernel. -/
structure FEM (A : Type) where
  idents : IdentsMap A
  /-- the vnode filters of the manager's kqueue -/
  filters : ℤ → Option Flags
  /-- descriptors opened and not closed -/
  opened : Finset ℤ

/-- The messages of `Events` that the manager handles. -/
inductive Msg (A : Type) where
  | registerFileEvent (path : String) (flags : Flags) (ref : A)
  | unregisterFileEvent (ref : A)
  | kqueueFileEvent (ident : ℤ) (flags : Flags)
  deriving DecidableEq, Repr

/-- What `open` and `kevent` answer, if they are called. -/
structure Sys where
  ident : ℤ
  nev : ℤ
  deriving DecidableEq, Repr

/-- What the manager sends: `SvdFileEvent` to an actor, `ApiSuccess` to the sender. -/
inductive Sent (A : Type) where
  | fileEvent (ref : A) (path : String) (flags : Flags)
  | apiSuccess
  deriving DecidableEq, Repr

/-- The exceptions: `SvdFileOpenException` has no constructor for a message, so looking for it is
what fails. -/
inductive Exc where
  | noSuchMethodException
  | exception (message : String)
  deriving DecidableEq, Repr

/-- What handling a message leaves behind. -/
structure Outcome (A : Type) where
  fem : FEM A
  sent : List (Sent A)
  raised : Option Exc

namespace FEM

omit [DecidableEq A] in
/-- A new instance in a process that has nothing open. -/
def init : FEM A := ⟨∅, fun _ => none, ∅⟩

omit [DecidableEq A] in
/-- `idents.find { case (i, (p, l)) => p == path }`. -/
def find (s : FEM A) (path : String) : Option (Σ _ : ℤ, String × ActorRefList A) :=
  s.idents.entries.find? fun e => e.2.1 == path

omit [DecidableEq A] in
def registerNewFileEvent (s : FEM A) (c : Sys) (path : String) (flags : Flags) (ref : A) :
    FEM A × Option Exc :=
  if c.ident = -1 then (s, some .noSuchMethodException)
  else
    let opened := { s with opened := insert c.ident s.opened }
    if c.nev = -1 then (opened, some (.exception "Failed to register kevent!"))
    else
      ({ opened with
        filters := Function.update s.filters c.ident (some flags)
        idents := s.idents.insert c.ident (path, [(flags, ref)]) }, none)

/-- `list filter { case (flags, actor) => actor == ref } foreach { list -= _ }`. -/
def dropRef (ref : A) (list : ActorRefList A) : ActorRefList A :=
  (list.filter fun x => x.2 == ref).foldl List.erase list

/-- The body of the loop over `idents` that `SvdUnregisterFileEvent` runs. -/
def visit (ref : A) (m : IdentsMap A) (e : Σ _ : ℤ, String × ActorRefList A) : IdentsMap A :=
  let list := dropRef ref e.2.2
  if list.isEmpty then m.erase e.1 else m.insert e.1 (e.2.1, list)

/-- `SvdFileEventsManager.receive`. -/
def receive (s : FEM A) (c : Sys) : Msg A → Outcome A
  | .registerFileEvent path flags ref =>
    match s.find path with
    | some ⟨i, (p, list)⟩ =>
      ⟨{ s with idents := s.idents.insert i (p, list ++ [(flags, ref)]) }, [.apiSuccess], none⟩
    | none =>
      match s.registerNewFileEvent c path flags ref with
      | (s', none) => ⟨s', [.apiSuccess], none⟩
      | (s', some e) => ⟨s', [], some e⟩
  | .unregisterFileEvent ref =>
    ⟨{ s with idents := s.idents.entries.foldl (visit ref) s.idents }, [.apiSuccess], none⟩
  | .kqueueFileEvent ident flags =>
    let told := match s.idents.lookup ident with
      | some (path, list) => (list.filter fun x => forwards x.1 flags).map fun x =>
          Sent.fileEvent x.2 path flags
      | none => []
    ⟨s, told ++ [.apiSuccess], none⟩

omit [DecidableEq A] in
/-- The supervisor replaces the instance; the process keeps its descriptors. -/
def restart (s : FEM A) : FEM A := { s with idents := ∅, filters := fun _ => none }

/-- A message handled under supervision. -/
def step (s : FEM A) (e : Msg A × Sys) : FEM A :=
  let o := s.receive e.2 e.1
  if o.raised.isSome then o.fem.restart else o.fem

end FEM

/-! ### The loops of `SvdUnregisterFileEvent` -/

section Unregister

theorem foldl_erase_cons {x : Flags × A} : ∀ (ys l : ActorRefList A), x ∉ ys →
    ys.foldl List.erase (x :: l) = x :: ys.foldl List.erase l
  | [], _, _ => rfl
  | y :: ys, l, h => by
    rw [List.mem_cons, not_or] at h
    have hxy : (x == y) = false := by simpa using h.1
    rw [List.foldl_cons, List.foldl_cons, List.erase_cons, hxy]
    exact foldl_erase_cons ys (l.erase y) h.2

/-- The inner loop removes every registration of the actor and nothing else. -/
theorem dropRef_eq (ref : A) : ∀ list : ActorRefList A,
    FEM.dropRef ref list = list.filter fun x => x.2 ≠ ref
  | [] => rfl
  | x :: list => by
    have ih := dropRef_eq ref list
    unfold FEM.dropRef at ih ⊢
    by_cases hx : x.2 = ref
    · rw [List.filter_cons, if_pos (by simpa using hx), List.foldl_cons, List.erase_cons_head, ih,
        List.filter_cons, if_neg (by simpa using hx)]
    · have hmem : x ∉ list.filter fun x => x.2 == ref := by
        rw [List.mem_filter]
        exact fun h => hx (by simpa using h.2)
      rw [List.filter_cons, if_neg (by simpa using hx), foldl_erase_cons _ _ hmem, ih,
        List.filter_cons, if_pos (by simpa using hx)]

/-- What is left of an entry when an actor is unregistered. -/
def remaining (ref : A) (v : String × ActorRefList A) : Option (String × ActorRefList A) :=
  if (v.2.filter fun x => x.2 ≠ ref) = [] then none
  else some (v.1, v.2.filter fun x => x.2 ≠ ref)

theorem lookup_visit_self (ref : A) (m : IdentsMap A) (i : ℤ) (v : String × ActorRefList A) :
    (FEM.visit ref m ⟨i, v⟩).lookup i = remaining ref v := by
  unfold FEM.visit remaining
  rw [dropRef_eq]
  by_cases h : (v.2.filter fun x => x.2 ≠ ref) = []
  · rw [if_pos h]
    simp only [h, List.isEmpty_nil, if_true, AList.lookup_erase]
  · rw [if_neg h]
    have he : (v.2.filter fun x => x.2 ≠ ref).isEmpty = false := by simpa using h
    simp only [he, Bool.false_eq_true, if_false, AList.lookup_insert]

theorem lookup_visit_other (ref : A) (m : IdentsMap A) {i j : ℤ} (h : i ≠ j)
    (v : String × ActorRefList A) : (FEM.visit ref m ⟨j, v⟩).lookup i = m.lookup i := by
  unfold FEM.visit
  simp only
  split
  · exact AList.lookup_erase_ne h
  · exact AList.lookup_insert_ne h

/-- The outer loop, over entries with distinct descriptors. -/
theorem lookup_foldl_visit (ref : A) (i : ℤ) :
    ∀ (l : List (Σ _ : ℤ, String × ActorRefList A)) (m : IdentsMap A), l.NodupKeys →
      (l.foldl (FEM.visit ref) m).lookup i =
        (l.dlookup i).elim (m.lookup i) (remaining ref)
  | [], m, _ => rfl
  | ⟨j, v⟩ :: l, m, h => by
    rw [List.nodupKeys_cons] at h
    rw [List.foldl_cons, lookup_foldl_visit ref i l _ h.2]
    by_cases hij : i = j
    · subst hij
      have hn : l.dlookup i = none := List.dlookup_eq_none.mpr h.1
      rw [hn, List.dlookup_cons_eq]
      exact lookup_visit_self ref m i v
    · rw [List.dlookup_cons_ne l _ hij, lookup_visit_other ref m hij]

theorem lookup_unregister (ref : A) (m : IdentsMap A) (i : ℤ) :
    (m.entries.foldl (FEM.visit ref) m).lookup i = (m.lookup i).bind (remaining ref) := by
  rw [lookup_foldl_visit ref i m.entries m m.nodupKeys]
  show (m.lookup i).elim (m.lookup i) (remaining ref) = _
  cases m.lookup i <;> rfl

end Unregister

end ServeD.Utils.FileEvents
