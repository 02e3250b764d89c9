import ServeD.Lib.ObjectStore
import ServeD.Lib.Runs
import ServeD.Api.Records
import Mathlib.Data.List.Sort

/-! # The database client

`DBClient` of `DBServerClient.scala` and the collections of `DBCollections.scala`, for one
persistent class `T`: queries go by class, so the objects of other classes are never seen. The
client keeps two NeoDatis databases, the current one and the history, and the heap on which the
objects handed to it and loaded by it live.

An operation is first looked up (`find`, and for a removal the head of the history) and then
performed as a list of `Step`s, one for each `store`, `delete` and `commit` of the source: a
crash can cut this list anywhere. Equality `==` is the `equals` of the stored class; `Neodatis` is
the one thing the code takes from NeoDatis that is not spelled out here, the sort behind
`orderByDesc("createdAt")`, with its order among equal dates left open. -/

namespace ServeD.Db.Client

open ServeD.Lib.ObjectStore ServeD.Lib.Runs ServeD.Api.Records
open ServeD.Api.Records.Persistent (uuid createdAt)

/-- `orderByDesc("createdAt")` of a query. -/
class Neodatis (T : Type) [Persistent T] where
  orderByDesc : List (Instance T) → List (Instance T)
  perm : ∀ l, (orderByDesc l).Perm l
  sorted : ∀ l, (orderByDesc l).Pairwise fun a b => createdAt b.value ≤ createdAt a.value

/-- The sort that keeps the storage order among equal dates. -/
@[reducible] def Neodatis.stable {T : Type} [Persistent T] : Neodatis T where
  orderByDesc := List.insertionSort fun a b => createdAt b.value ≤ createdAt a.value
  perm := List.perm_insertionSort _
  sorted := fun l => by
    have htotal : Std.Total fun a b : Instance T => createdAt b.value ≤ createdAt a.value :=
      ⟨fun a b => le_total _ _⟩
    have htrans : IsTrans (Instance T) fun a b => createdAt b.value ≤ createdAt a.value :=
      ⟨fun a b c hab hbc => le_trans hbc hab⟩
    exact List.pairwise_insertionSort _ l

instance : Neodatis SvdUserPort := Neodatis.stable

/-- `DBClient`, with the heap of the objects it deals with. -/
structure DBClient (T : Type) where
  heap : List T
  currentODB : Odb T
  historyODB : Odb T
  deriving DecidableEq, Repr

variable {T : Type} [Persistent T]

/-! ### Collections -/

/-- The query of `FindByUUIDCollection`: both words of the uuid agree. -/
def uuidMatch (u : UUID) (dbobj : T) : Bool :=
  (uuid dbobj).mostSigBits == u.mostSigBits && (uuid dbobj).leastSigBits == u.leastSigBits

def findByUUIDCollection (odb : Odb T) (u : UUID) : List (Instance T) :=
  odb.getObjects (uuidMatch u)

def findByUUIDOrderedCollection [Neodatis T] (odb : Odb T) (u : UUID) : List (Instance T) :=
  Neodatis.orderByDesc (findByUUIDCollection odb u)

omit [Persistent T] in
/-- `ClassQueryCollection.objects`. -/
def classQueryCollection (odb : Odb T) : List (Instance T) := odb.objects

omit [Persistent T] in
/-- `ClassQueryCollection.count`. -/
def count (odb : Odb T) : ℕ := odb.objects.length

omit [Persistent T] in
def nativeQueryCollection (odb : Odb T) (predicate : T → Bool) : List (Instance T) :=
  odb.getObjects predicate

namespace DBClient

omit [Persistent T] in
/-- A client of two empty databases. -/
def init : DBClient T := ⟨[], Odb.empty, Odb.empty⟩

/-- `TopLevelCollection(db)(uuid)`, which is also `DBClient.find`. -/
def find (db : DBClient T) (u : UUID) : Option (Instance T) :=
  (findByUUIDCollection db.currentODB u).head?

/-- `TopLevelCollection(db).historyFor(uuid)`. -/
def historyFor [Neodatis T] (db : DBClient T) (u : UUID) : List (Instance T) :=
  findByUUIDOrderedCollection db.historyODB u

end DBClient

/-! ### Steps -/

/-- The two databases of a client. -/
inductive Base where
  | current
  | history
  deriving DecidableEq, Repr

/-- The calls on a database that an operation makes. -/
inductive Step (T : Type) where
  | store (b : Base) (obj : Instance T)
  | delete (b : Base) (obj : Instance T)
  | commit (b : Base)
  deriving DecidableEq, Repr

namespace DBClient

omit [Persistent T]

/-- Change one of the databases. -/
def onBase (db : DBClient T) (f : Odb T → Odb T) : Base → DBClient T
  | .current => { db with currentODB := f db.currentODB }
  | .history => { db with historyODB := f db.historyODB }

def exec (db : DBClient T) : Step T → DBClient T
  | .store b obj => db.onBase (·.store obj) b
  | .delete b obj => db.onBase (·.delete obj) b
  | .commit b => db.onBase Odb.commit b

/-- The caller constructs an object. -/
def create (db : DBClient T) (v : T) : DBClient T := { db with heap := db.heap ++ [v] }

/-- The client is closed and opened again: what was not committed is gone, and the objects of both
databases are made anew. -/
def reconnect (db : DBClient T) : DBClient T where
  heap := db.heap ++ db.currentODB.committed ++ db.historyODB.committed
  currentODB := db.currentODB.reopen db.heap.length
  historyODB := db.historyODB.reopen (db.heap ++ db.currentODB.committed).length

end DBClient

/-! ### Operations -/

variable [BEq T]

namespace DBClient

/-- The calls of `db << newObj`. -/
def saveSteps (db : DBClient T) (newObj : Instance T) : List (Step T) :=
  match db.find (uuid newObj.value) with
  | some oldObj =>
    if oldObj.value != newObj.value then
      [.store .history oldObj, .commit .history, .store .current newObj,
        .delete .current oldObj, .commit .current]
    else []
  | none =>
    [.store .current newObj, .commit .current, .store .history newObj, .commit .history]

/-- The calls of `db ~ uuid`. -/
def removeSteps [Neodatis T] (db : DBClient T) (u : UUID) : List (Step T) :=
  match db.find u with
  | none => []
  | some obj =>
    let moved : List (Step T) := [.store .history obj, .commit .history]
    let kept : List (Step T) :=
      match (findByUUIDOrderedCollection db.historyODB (uuid obj.value)).head? with
      | some o => if o.value == obj.value then [] else moved
      | none => moved
    kept ++ [.delete .current obj, .commit .current]

/-- `db << obj`. -/
def save (db : DBClient T) (obj : Instance T) : DBClient T :=
  run exec db (db.saveSteps obj)

/-- `db << obj` of an object constructed for it. -/
def saveNew (db : DBClient T) (v : T) : DBClient T :=
  (db.create v).save ⟨db.heap.length, v⟩

/-- `db ~ uuid`. -/
def remove [Neodatis T] (db : DBClient T) (u : UUID) : DBClient T :=
  run exec db (db.removeSteps u)

end DBClient

/-- What a program does with a client. Objects are given by their address: the program has
constructed them, or has them from a query. -/
inductive Op (T : Type) where
  /-- an object is constructed -/
  | create (v : T)
  /-- `db << obj` -/
  | save (ref : ℕ)
  /-- `db ~ obj` -/
  | removeObj (ref : ℕ)
  /-- `db ~ uuid` -/
  | remove (u : UUID)
  /-- the client is closed and opened again -/
  | reconnect
  deriving DecidableEq, Repr

namespace DBClient

omit [Persistent T] [BEq T] in
/-- The object at an address. -/
def deref (db : DBClient T) (ref : ℕ) : Option (Instance T) :=
  db.heap[ref]?.map fun v => ⟨ref, v⟩

/-- The calls on the databases that an operation makes. -/
def opSteps [Neodatis T] (db : DBClient T) : Op T → List (Step T)
  | .create _ => []
  | .save ref => (db.deref ref).elim [] db.saveSteps
  | .removeObj ref => (db.deref ref).elim [] fun obj => db.removeSteps (uuid obj.value)
  | .remove u => db.removeSteps u
  | .reconnect => []

/-- One operation of the program. -/
def step [Neodatis T] (db : DBClient T) : Op T → DBClient T
  | .create v => db.create v
  | .save ref => (db.deref ref).elim db db.save
  | .removeObj ref => (db.deref ref).elim db fun obj => db.remove (uuid obj.value)
  | .remove u => db.remove u
  | .reconnect => db.reconnect

end DBClient

end ServeD.Db.Client
