import ServeD.Db.Invariant
import Mathlib.Data.BitVec

/-! # User ports

`SvdPools` and the part of `SvdAccountUtils` that picks and stores user ports. A random generator
and `portAvailable`, which tries to bind a port, are outside: a `Draw` is what the two answer to one
call of each, and the functions take the draws they make as an argument. They come back as `none`
when these draws are used up, that is when they are still drawing. -/

namespace ServeD.Managers.AccountUtils

open ServeD.Lib.ObjectStore ServeD.Api.Records ServeD.Db.Client ServeD.Db.Invariant

/-! ### Pools -/

/-- A `Range` of Scala: `start until stop`. -/
structure Pool where
  start : ℕ
  stop : ℕ
  deriving DecidableEq, Repr

namespace SvdPools

def userPortPool : Pool := ⟨10000, 60000⟩

end SvdPools

/-- The port is in the pool of user ports. -/
def InUserPool (port : ℤ) : Prop :=
  SvdPools.userPortPool.start ≤ port ∧ port < SvdPools.userPortPool.stop

/-- What `rnd.nextInt(end - start)` gives, and what `portAvailable` says of the port. -/
structure Draw where
  next : Fin (SvdPools.userPortPool.stop - SvdPools.userPortPool.start)
  available : Bool
  deriving DecidableEq, Repr

instance : NeZero (SvdPools.userPortPool.stop - SvdPools.userPortPool.start) := ⟨by decide⟩

def Draw.port (d : Draw) : ℤ := SvdPools.userPortPool.start + d.next.val

/-- `SvdAccountUtils.randomFreePort`. -/
def randomFreePort : List Draw → Option ℤ
  | [] => none
  | d :: ds => if d.available then some d.port else randomFreePort ds

/-- `userPortRegistered`. -/
def userPortRegistered (db : DBClient SvdUserPort) (num : ℤ) : Bool :=
  if (nativeQueryCollection db.currentODB fun p => p.number == num).isEmpty then false else true

/-- `randomUserPort`, with the draws of each call of `randomFreePort`. -/
def randomUserPort (db : DBClient SvdUserPort) : List (List Draw) → Option ℤ
  | [] => none
  | ds :: more =>
    match randomFreePort ds with
    | none => none
    | some port => if !userPortRegistered db port then some port else randomUserPort db more

/-- `registerUserPort`. -/
def registerUserPort (db : DBClient SvdUserPort) (new : Fresh) (num : ℤ) : DBClient SvdUserPort :=
  db.saveNew ⟨num, new.uuid, new.now⟩

/-- The numbers of the records. -/
def numbers (db : DBClient SvdUserPort) : List ℤ :=
  (classQueryCollection db.currentODB).map fun o => o.value.number

/-- `if (query.isEmpty) false else true`. -/
theorem ite_not_isEmpty {T : Type} {odb : Odb T} {p : T → Bool} :
    (if (nativeQueryCollection odb p).isEmpty then false else true) = true ↔
      ∃ o ∈ odb.objects, p o.value = true := by
  unfold nativeQueryCollection
  split_ifs with h
  · rw [List.isEmpty_iff] at h
    refine iff_of_false (by decide) ?_
    rintro ⟨o, ho, hp⟩
    have hm : o ∈ odb.getObjects p := Odb.mem_getObjects.mpr ⟨ho, hp⟩
    rw [h] at hm; cases hm
  · rw [List.isEmpty_iff] at h
    refine iff_of_true rfl ?_
    obtain ⟨o, ho⟩ := List.exists_mem_of_ne_nil _ h
    exact ⟨o, Odb.mem_getObjects.mp ho⟩

section Ports

variable {db : DBClient SvdUserPort} {new : Fresh} {port : ℤ}

theorem Draw.inUserPool (d : Draw) : InUserPool d.port := by
  have h := d.next.isLt
  unfold InUserPool Draw.port
  unfold SvdPools.userPortPool at h ⊢
  simp only at h ⊢
  omega

theorem randomFreePort_inUserPool : ∀ {ds : List Draw}, randomFreePort ds = some port →
    InUserPool port
  | [], h => by cases h
  | d :: ds, h => by
    unfold randomFreePort at h
    split_ifs at h with ha
    · cases h; exact d.inUserPool
    · exact randomFreePort_inUserPool h

/-- A port that `randomUserPort` picks is in the pool and not registered. -/
theorem randomUserPort_spec : ∀ {dss : List (List Draw)}, randomUserPort db dss = some port →
    InUserPool port ∧ userPortRegistered db port = false
  | [], h => by cases h
  | ds :: dss, h => by
    unfold randomUserPort at h
    rcases hf : randomFreePort ds with _ | p
    · rw [hf] at h; cases h
    · simp only [hf] at h
      split_ifs at h with hr
      · cases h
        exact ⟨randomFreePort_inUserPool hf, by simpa using hr⟩
      · exact randomUserPort_spec h

theorem userPortRegistered_iff : userPortRegistered db port = true ↔ port ∈ numbers db := by
  unfold userPortRegistered numbers classQueryCollection
  rw [List.mem_map, ite_not_isEmpty]
  simp

theorem userPortRegistered_eq_false : userPortRegistered db port = false ↔ port ∉ numbers db := by
  rw [← userPortRegistered_iff, Bool.not_eq_true]

theorem wf_registerUserPort (hw : WF db) (new : Fresh) (num : ℤ) :
    WF (registerUserPort db new num) := wf_saveNew hw _

theorem numbers_registerUserPort (hw : WF db) (hnew : db.find new.uuid = none) (num : ℤ) :
    numbers (registerUserPort db new num) = numbers db ++ [num] := by
  unfold numbers classQueryCollection registerUserPort
  rw [objects_saveNew_none hw hnew, List.map_append]
  rfl

end Ports

end ServeD.Managers.AccountUtils
