import ServeD.Managers.AccountUtils

/-! # Registration of accounts

`registerUserAccount` of `SvdAccountUtils`, with `createAkkaUserConfIfNotExistant`. It writes a
port, a uid, the home directory, the akka configuration and the account one after the other, without
a transaction. A call is the list of its writes and whether it returns (`Script`); an exception can
cut it off at any of them (`Call.cut`), and the process goes on with what was written.

What was written always fits together: one record for each uid, distinct ports, recorded as user
ports (`Consistent`). But a call that is cut off between the uid record and the account record
leaves a uid that is registered and has no account, and every later call for it raises (`Stuck`). If
no call is cut off there, a registration can always be completed by calling again
(`registrationLaw_after`). -/

namespace ServeD.Managers.Registration

open ServeD.Lib.ObjectStore ServeD.Lib.Runs ServeD.Api.Records ServeD.Db.Client ServeD.Db.Invariant
open ServeD.Managers.AccountUtils

/-! ### Writes -/

section Writes

variable {T : Type}

/-- What `db << new T(...)` does: the object is constructed,
then come the calls on the databases. -/
inductive DbWrite (T : Type) where
  | create (v : T)
  | call (st : Step T)
  deriving DecidableEq, Repr

def perform (db : DBClient T) : DbWrite T → DBClient T
  | .create v => db.create v
  | .call st => db.exec st

/-- The writes of `db << v` for a new object `v`. -/
def saveWrites [Persistent T] [BEq T] (db : DBClient T) (v : T) : List (DbWrite T) :=
  .create v :: ((db.create v).saveSteps ⟨db.heap.length, v⟩).map .call

end Writes

/-- The database of the accounts, by class, and the directory of the users: the home directories and
the akka configurations in them, with the port they name. -/
structure World where
  ports : DBClient SvdUserPort
  uids : DBClient SvdUserUID
  accounts : DBClient SvdAccount
  homes : List ℤ
  confs : List (ℤ × ℤ)

inductive Write where
  | port (w : DbWrite SvdUserPort)
  | uid (w : DbWrite SvdUserUID)
  | account (w : DbWrite SvdAccount)
  | mkdirs (uid : ℤ)
  | writeToFile (uid port : ℤ)
  deriving DecidableEq, Repr

namespace World

/-- A commit is for all classes of the database. -/
def commit (s : World) (b : Base) : World :=
  { s with
    ports := s.ports.exec (.commit b)
    uids := s.uids.exec (.commit b)
    accounts := s.accounts.exec (.commit b) }

def exec (s : World) : Write → World
  | .port (.call (.commit b)) => s.commit b
  | .uid (.call (.commit b)) => s.commit b
  | .account (.call (.commit b)) => s.commit b
  | .port w => { s with ports := perform s.ports w }
  | .uid w => { s with uids := perform s.uids w }
  | .account w => { s with accounts := perform s.accounts w }
  | .mkdirs uid => { s with homes := uid :: s.homes }
  | .writeToFile uid port => { s with confs := (uid, port) :: s.confs }

end World

/-- The writes of a call, in order, and whether it then returns or raises an exception. -/
structure Script where
  writes : List Write
  returns : Bool
  deriving DecidableEq, Repr

/-- One part of a call after another: what comes later finds the writes of what came before. -/
def Script.andThen (r : Script) (s : World) (next : World → Script) : Script :=
  if r.returns then
    let r' := next (run World.exec s r.writes)
    ⟨r.writes ++ r'.writes, r'.returns⟩
  else r

/-! ### The calls -/

/-- What a call of `registerUserAccount` meets: the draws of `randomUserPort`, the uuids of the
records, and whether `mkdirs` makes the directory. -/
structure Attempt where
  draws : List (List Draw)
  port : Fresh
  uid : Fresh
  account : Fresh
  mkdirs : Bool
  deriving DecidableEq, Repr

/-- `userUIDRegistered`. -/
def userUIDRegistered (db : DBClient SvdUserUID) (num : ℤ) : Bool :=
  if (nativeQueryCollection db.currentODB fun u => u.number == num).isEmpty then false else true

/-- `checkOrCreateDir(userHomeDir)`, which catches all exceptions. -/
def checkOrCreateDir (mkdirs : Bool) (uid : ℤ) (s : World) : Script :=
  ⟨if uid ∈ s.homes then [] else if mkdirs then [.mkdirs uid] else [], true⟩

/-- `createAkkaUserConfIfNotExistant`. A file is written only into a directory that exists. -/
def createAkkaUserConfIfNotExistant (uid port : ℤ) (s : World) : Script :=
  if uid ∈ s.confs.map (·.1) then ⟨[], true⟩
  else if uid ∈ s.homes then ⟨[.writeToFile uid port], true⟩ else ⟨[], false⟩

def performChecks (mkdirs : Bool) (uid managerPort : ℤ) (s : World) : Script :=
  (checkOrCreateDir mkdirs uid s).andThen s (createAkkaUserConfIfNotExistant uid managerPort)

/-- `registerUserPort`, by its writes. -/
def portScript (new : Fresh) (num : ℤ) (s : World) : Script :=
  ⟨(saveWrites s.ports ⟨num, new.uuid, new.now⟩).map .port, true⟩

/-- `registerUserUID`. -/
def registerUserUID (new : Fresh) (num : ℤ) (s : World) : Script :=
  ⟨(saveWrites s.uids ⟨num, "", new.uuid, new.now⟩).map .uid, true⟩

/-- `SvdAccount(userName = name, uid = uid, accountManagerPort = userManagerPort)`. -/
def newAccount (new : Fresh) (name : String) (uid userManagerPort : ℤ) : SvdAccount :=
  ⟨name, "", uid, userManagerPort, "", "", new.uuid, new.now⟩

def accountScript (new : Fresh) (name : String) (uid userManagerPort : ℤ) (s : World) : Script :=
  ⟨(saveWrites s.accounts (newAccount new name uid userManagerPort)).map .account, true⟩

/-- `SvdAccounts(db).filter { _.uid == uid }`. -/
def accountsOf (uid : ℤ) (s : World) : List SvdAccount :=
  ((classQueryCollection s.accounts.currentODB).map (·.value)).filter fun a => a.uid == uid

/-- `registerUserAccount(name, uid)`, with what its calls meet;
`none` while it is drawing a port. -/
def registerUserAccount (name : String) (uid : ℤ) : List Attempt → World → Option Script
  | [], _ => none
  | a :: more, s =>
    match randomUserPort s.ports a.draws with
    | none => none
    | some userManagerPort =>
      if !userUIDRegistered s.uids uid then
        -- the caller goes on after the recursive call
        let first := if !userPortRegistered s.ports userManagerPort
          then some (portScript a.port userManagerPort s) else registerUserAccount name uid more s
        first.map fun r => r.andThen s fun s =>
          (registerUserUID a.uid uid s).andThen s fun s =>
            (performChecks a.mkdirs uid userManagerPort s).andThen s fun s =>
              accountScript a.account name uid userManagerPort s
      else
        match (accountsOf uid s).head? with
        | none => some ⟨[], false⟩
        | some userAccount => some (performChecks a.mkdirs uid userAccount.accountManagerPort s)

/-- A call, cut off by an exception at the `k`-th of its writes or not at all. -/
structure Call where
  name : String
  uid : ℤ
  attempts : List Attempt
  cut : Option ℕ
  deriving DecidableEq, Repr

/-- The writes that the call gets to. -/
def Call.performed (c : Call) (r : Script) : List Write := (c.cut.map r.writes.take).getD r.writes

def Call.script (c : Call) (s : World) : Option Script :=
  registerUserAccount c.name c.uid c.attempts s

def step (s : World) (c : Call) : World :=
  (c.script s).elim s fun r => run World.exec s (c.performed r)

/-- Empty databases, with any directories. -/
def init (homes : List ℤ) (confs : List (ℤ × ℤ)) : World :=
  ⟨DBClient.init, DBClient.init, DBClient.init, homes, confs⟩

/-! ### What the queries see -/

section Values

variable {T : Type}

/-- The values of a class query. -/
def values (db : DBClient T) : List T := (classQueryCollection db.currentODB).map (·.value)

/-- The current database lives on the heap. -/
def Sound (db : DBClient T) : Prop := OnHeap db.heap db.currentODB.objects

/-- The same objects, at the same addresses: at most a commit lies between the two. -/
def Same (db db' : DBClient T) : Prop :=
  db'.heap = db.heap ∧ db'.currentODB.objects = db.currentODB.objects

theorem Same.refl (db : DBClient T) : Same db db := ⟨rfl, rfl⟩

theorem Same.trans {db db' db'' : DBClient T} (h : Same db db') (h' : Same db' db'') :
    Same db db'' :=
  ⟨h'.1.trans h.1, h'.2.trans h.2⟩

theorem same_commit (db : DBClient T) (b : Base) : Same db (db.exec (.commit b)) := by
  cases b with
  | current => exact ⟨rfl, rfl⟩
  | history => exact ⟨rfl, rfl⟩

theorem Same.values {db db' : DBClient T} (h : Same db db') : values db' = values db := by
  unfold Registration.values classQueryCollection; rw [h.2]

theorem Same.sound {db db' : DBClient T} (h : Same db db') (hs : Sound db) : Sound db' := by
  unfold Sound; rw [h.1, h.2]; exact hs

theorem Same.find [Persistent T] {db db' : DBClient T} (h : Same db db') (u : UUID) :
    db'.find u = db.find u := by
  unfold DBClient.find findByUUIDCollection Odb.getObjects; rw [h.2]

/-- The object is stored in the current database. -/
def Stored (ws : List (DbWrite T)) : Prop := ∃ i, .call (.store .current i) ∈ ws

variable [Persistent T] [BEq T] {db : DBClient T} {v : T}

theorem saveWrites_eq (hf : db.find (Persistent.uuid v) = none) :
    saveWrites db v = [.create v, .call (.store .current ⟨db.heap.length, v⟩),
      .call (.commit .current), .call (.store .history ⟨db.heap.length, v⟩),
      .call (.commit .history)] := by
  have hf' : (db.create v).find (Persistent.uuid v) = none := hf
  simp only [saveWrites, DBClient.saveSteps, hf']
  rfl

theorem stored_saveWrites (hf : db.find (Persistent.uuid v) = none) : Stored (saveWrites db v) :=
  ⟨⟨db.heap.length, v⟩, by rw [saveWrites_eq hf]; simp⟩

/-- **`<<` of a new object, cut off anywhere**: the object is seen exactly when it was stored. -/
theorem cut_saveWrites (hs : Sound db) (hf : db.find (Persistent.uuid v) = none)
    {ws : List (DbWrite T)} (hp : ws <+: saveWrites db v) :
    Sound (run perform db ws) ∧ (¬ Stored ws ∧ values (run perform db ws) = values db ∨
      Stored ws ∧ values (run perform db ws) = values db ++ [v]) := by
  have hc : Sound (db.create v) := hs.append_heap [v]
  have hi : (db.create v).heap[db.heap.length]? = some v := onHeap_create db v
  have hobj : (db.currentODB.store ⟨db.heap.length, v⟩).objects =
      db.currentODB.objects ++ [⟨db.heap.length, v⟩] := by
    refine (Odb.objects_store hc hi).trans (congrArg _ (if_neg fun hk => ?_))
    obtain ⟨a, ha, hr⟩ := List.mem_map.mp hk
    have hlt := (List.getElem?_eq_some_iff.mp (hs a ha)).1
    have hr' : a.ref = db.heap.length := hr
    omega
  -- once the object is stored, nothing changes what the queries see
  have hstored : ∀ ws, (run perform db ws).heap = (db.create v).heap →
      (run perform db ws).currentODB.objects =
        (db.currentODB.store ⟨db.heap.length, v⟩).objects →
      .call (.store .current ⟨db.heap.length, v⟩) ∈ ws →
      Sound (run perform db ws) ∧ (¬ Stored ws ∧ values (run perform db ws) = values db ∨
        Stored ws ∧ values (run perform db ws) = values db ++ [v]) := by
    intro ws h1 h2 h3
    refine ⟨?_, .inr ⟨⟨_, h3⟩, ?_⟩⟩
    · unfold Sound; rw [h1, h2]; exact Odb.onHeap_store hc hi
    · unfold values classQueryCollection; rw [h2, hobj, List.map_append]; rfl
  rw [saveWrites_eq hf] at hp
  obtain ⟨k, hk⟩ : ∃ k, ws = List.take k _ := ⟨_, List.prefix_iff_eq_take.mp hp⟩
  subst hk
  rcases k with _ | _ | _ | _ | _ | k
  · exact ⟨hs, .inl ⟨by simp [Stored], rfl⟩⟩
  · exact ⟨hc, .inl ⟨by simp [Stored], rfl⟩⟩
  · exact hstored _ rfl rfl (by simp)
  · exact hstored _ rfl rfl (by simp)
  · exact hstored _ rfl rfl (by simp)
  · rw [List.take_of_length_le (by simp)]
    exact hstored _ rfl rfl (by simp)

end Values

/-- What the queries of `SvdAccountUtils` see. -/
structure View where
  ports : List ℤ
  uids : List ℤ
  accounts : List SvdAccount

def view (s : World) : View :=
  ⟨numbers s.ports, (values s.uids).map (·.number), values s.accounts⟩

def Sounds (s : World) : Prop := Sound s.ports ∧ Sound s.uids ∧ Sound s.accounts

theorem numbers_eq (db : DBClient SvdUserPort) : numbers db = (values db).map (·.number) := by
  unfold numbers values; rw [List.map_map]; rfl

/-! ### The parts of a call -/

section Segments

theorem exec_port (s : World) (w : DbWrite SvdUserPort) :
    (s.exec (.port w)).ports = perform s.ports w ∧ Same s.uids (s.exec (.port w)).uids ∧
      Same s.accounts (s.exec (.port w)).accounts := by
  rcases w with v | (_ | _ | b)
  · exact ⟨rfl, Same.refl _, Same.refl _⟩
  · exact ⟨rfl, Same.refl _, Same.refl _⟩
  · exact ⟨rfl, Same.refl _, Same.refl _⟩
  · exact ⟨rfl, same_commit _ b, same_commit _ b⟩

theorem exec_uid (s : World) (w : DbWrite SvdUserUID) :
    (s.exec (.uid w)).uids = perform s.uids w ∧ Same s.ports (s.exec (.uid w)).ports ∧
      Same s.accounts (s.exec (.uid w)).accounts := by
  rcases w with v | (_ | _ | b)
  · exact ⟨rfl, Same.refl _, Same.refl _⟩
  · exact ⟨rfl, Same.refl _, Same.refl _⟩
  · exact ⟨rfl, Same.refl _, Same.refl _⟩
  · exact ⟨rfl, same_commit _ b, same_commit _ b⟩

theorem exec_account (s : World) (w : DbWrite SvdAccount) :
    (s.exec (.account w)).accounts = perform s.accounts w ∧
    Same s.ports (s.exec (.account w)).ports ∧
      Same s.uids (s.exec (.account w)).uids := by
  rcases w with v | (_ | _ | b)
  · exact ⟨rfl, Same.refl _, Same.refl _⟩
  · exact ⟨rfl, Same.refl _, Same.refl _⟩
  · exact ⟨rfl, Same.refl _, Same.refl _⟩
  · exact ⟨rfl, same_commit _ b, same_commit _ b⟩

/-- A record of the class of `f` is stored in the current database. -/
def StoredAs {T : Type} (f : DbWrite T → Write) (p : List Write) : Prop :=
  ∃ i, f (.call (.store .current i)) ∈ p

section Class

variable {T U : Type} {get : World → DBClient T} {other : World → DBClient U}
    {f : DbWrite T → Write}

theorem run_class (h : ∀ s w, get (s.exec (f w)) = perform (get s) w) :
    ∀ (ws : List (DbWrite T)) (s : World),
      get (run World.exec s (ws.map f)) = run perform (get s) ws
  | [], _ => rfl
  | w :: ws, s => by
    rw [List.map_cons, run_cons, run_cons, run_class h ws (s.exec (f w)), h]

theorem run_other (h : ∀ s w, Same (other s) (other (s.exec (f w)))) :
    ∀ (ws : List (DbWrite T)) (s : World), Same (other s) (other (run World.exec s (ws.map f)))
  | [], _ => Same.refl _
  | w :: ws, s => (h s w).trans (run_other h ws (s.exec (f w)))

theorem storedAs_map (hf : Function.Injective f) {ws : List (DbWrite T)} :
    StoredAs f (ws.map f) ↔ Stored ws := by
  unfold StoredAs Stored
  simp [hf.eq_iff]

variable [Persistent T] [BEq T]

/-- A record of the class is saved, up to a cut. -/
theorem cut_class (h : ∀ s w, get (s.exec (f w)) = perform (get s) w) (hf : Function.Injective f)
    {s : World} {v : T} (hs : Sound (get s)) (hn : (get s).find (Persistent.uuid v) = none)
    {p : List Write} (hp : p <+: (saveWrites (get s) v).map f) :
    Sound (get (run World.exec s p)) ∧
      (¬ StoredAs f p ∧ values (get (run World.exec s p)) = values (get s) ∨
        StoredAs f p ∧ values (get (run World.exec s p)) = values (get s) ++ [v]) := by
  obtain ⟨ws, hws, rfl⟩ := List.prefix_map_iff.mp hp
  rw [run_class h, storedAs_map hf]
  exact cut_saveWrites hs hn hws

end Class

theorem storedAs_append {T : Type} {f : DbWrite T → Write} {p q : List Write} :
    StoredAs f (p ++ q) ↔ StoredAs f p ∨ StoredAs f q := by
  simp only [StoredAs, List.mem_append, exists_or]

variable {s : World} {new : Fresh} {p : List Write}

/-- `registerUserPort`, up to a cut. -/
theorem cut_port (hs : Sounds s) (hn : s.ports.find new.uuid = none) (num : ℤ)
    (hp : p <+: (portScript new num s).writes) :
    Sounds (run World.exec s p) ∧ Same s.uids (run World.exec s p).uids ∧
      Same s.accounts (run World.exec s p).accounts ∧
      (¬ StoredAs .port p ∧ view (run World.exec s p) = view s ∨
        StoredAs .port p ∧ view (run World.exec s p) = { view s with ports := (view s).ports ++
          [num] }) := by
  obtain ⟨h1, h2⟩ := cut_class (fun s w => (exec_port s w).1) (fun _ _ h =>
    Write.port.inj h) hs.1 hn hp
  obtain ⟨ws, -, rfl⟩ := List.prefix_map_iff.mp hp
  have hu := run_other (fun s w => (exec_port s w).2.1) ws s
  have ha := run_other (fun s w => (exec_port s w).2.2) ws s
  refine ⟨⟨h1, hu.sound hs.2.1, ha.sound hs.2.2⟩, hu, ha, ?_⟩
  simp only [view, hu.values, ha.values, numbers_eq]
  refine h2.imp (fun h => ⟨h.1, by rw [h.2]⟩) fun h => ⟨h.1, by rw [h.2]; simp⟩

/-- `registerUserUID`, up to a cut. -/
theorem cut_uid (hs : Sounds s) (hn : s.uids.find new.uuid = none) (num : ℤ)
    (hp : p <+: (registerUserUID new num s).writes) :
    Sounds (run World.exec s p) ∧ Same s.ports (run World.exec s p).ports ∧
      Same s.accounts (run World.exec s p).accounts ∧
      (¬ StoredAs .uid p ∧ view (run World.exec s p) = view s ∨
        StoredAs .uid p ∧ view (run World.exec s p) = { view s with uids := (view s).uids ++
          [num] }) := by
  obtain ⟨h1, h2⟩ := cut_class (fun s w => (exec_uid s w).1) (fun _ _ h =>
    Write.uid.inj h) hs.2.1 hn hp
  obtain ⟨ws, -, rfl⟩ := List.prefix_map_iff.mp hp
  have hq := run_other (fun s w => (exec_uid s w).2.1) ws s
  have ha := run_other (fun s w => (exec_uid s w).2.2) ws s
  refine ⟨⟨hq.sound hs.1, h1, ha.sound hs.2.2⟩, hq, ha, ?_⟩
  simp only [view, hq.values, ha.values, numbers_eq]
  refine h2.imp (fun h => ⟨h.1, by rw [h.2]⟩) fun h => ⟨h.1, by rw [h.2]; simp⟩

/-- Both, completed. -/
theorem full_port (hs : Sounds s) (hn : s.ports.find new.uuid = none) (num : ℤ) :
    Sounds (run World.exec s (portScript new num s).writes) ∧
      Same s.uids (run World.exec s (portScript new num s).writes).uids ∧
      Same s.accounts (run World.exec s (portScript new num s).writes).accounts ∧
      view (run World.exec s (portScript new num s).writes) =
        { view s with ports := (view s).ports ++ [num] } := by
  obtain ⟨h1, h2, h3, h4⟩ := cut_port hs hn num List.prefix_rfl
  refine ⟨h1, h2, h3, (h4.resolve_left fun h => h.1 ?_).2⟩
  exact (storedAs_map fun _ _ h => Write.port.inj h).mpr (stored_saveWrites hn)

theorem full_uid (hs : Sounds s) (hn : s.uids.find new.uuid = none) (num : ℤ) :
    Sounds (run World.exec s (registerUserUID new num s).writes) ∧
      Same s.accounts (run World.exec s (registerUserUID new num s).writes).accounts ∧
      StoredAs .uid (registerUserUID new num s).writes ∧
      view (run World.exec s (registerUserUID new num s).writes) =
        { view s with uids := (view s).uids ++ [num] } := by
  obtain ⟨h1, -, h3, h4⟩ := cut_uid hs hn num List.prefix_rfl
  have hst : StoredAs .uid (registerUserUID new num s).writes :=
    (storedAs_map fun _ _ h => Write.uid.inj h).mpr (stored_saveWrites hn)
  exact ⟨h1, h3, hst, (h4.resolve_left fun h => h.1 hst).2⟩

/-- The account record, up to a cut. -/
theorem cut_account (hs : Sounds s) {name : String} {uid port : ℤ}
    (hn : s.accounts.find new.uuid = none) (hp : p <+: (accountScript new name uid port s).writes) :
    Sounds (run World.exec s p) ∧
      (¬ StoredAs .account p ∧ view (run World.exec s p) = view s ∨
        StoredAs .account p ∧ view (run World.exec s p) =
          { view s with accounts := (view s).accounts ++ [newAccount new name uid port] }) := by
  obtain ⟨h1, h2⟩ := cut_class (fun s w => (exec_account s w).1) (fun _ _ h => Write.account.inj h)
    hs.2.2 hn hp
  obtain ⟨ws, -, rfl⟩ := List.prefix_map_iff.mp hp
  have hq := run_other (fun s w => (exec_account s w).2.1) ws s
  have hu := run_other (fun s w => (exec_account s w).2.2) ws s
  refine ⟨⟨hq.sound hs.1, hu.sound hs.2.1, h1⟩, ?_⟩
  simp only [view, hq.values, hu.values, numbers_eq]
  refine h2.imp (fun h => ⟨h.1, by rw [h.2]⟩) fun h => ⟨h.1, by rw [h.2]⟩

/-- The write is of a file. -/
def Write.isFile : Write → Bool
  | .mkdirs _ => true
  | .writeToFile _ _ => true
  | _ => false

/-- Files leave the databases as they are. -/
theorem run_files : ∀ {p : List Write} (s : World), (∀ w ∈ p, w.isFile = true) →
    (run World.exec s p).ports = s.ports ∧ (run World.exec s p).uids = s.uids ∧
      (run World.exec s p).accounts = s.accounts
  | [], _, _ => ⟨rfl, rfl, rfl⟩
  | w :: p, s, h => by
    have hw := h w (by simp)
    have ih := run_files (p := p) (s.exec w) fun w' hw' => h w' (List.mem_cons_of_mem _ hw')
    cases w with
    | mkdirs uid => exact ih
    | writeToFile uid port => exact ih
    | _ => cases hw

theorem sounds_files (hs : Sounds s) (h : ∀ w ∈ p, w.isFile = true) :
    Sounds (run World.exec s p) := by
  obtain ⟨h1, h2, h3⟩ := run_files s h
  unfold Sounds
  rw [h1, h2, h3]
  exact hs

theorem view_files (h : ∀ w ∈ p, w.isFile = true) : view (run World.exec s p) = view s := by
  obtain ⟨h1, h2, h3⟩ := run_files s h
  unfold view
  rw [h1, h2, h3]

theorem not_storedAs_files {T : Type} {f : DbWrite T → Write} (hf : ∀ w, (f w).isFile = false)
    (h : ∀ w ∈ p, w.isFile = true) : ¬ StoredAs f p := by
  rintro ⟨i, hi⟩
  have h1 := h _ hi
  rw [hf] at h1
  cases h1

@[simp] theorem andThen_writes (r : Script) (s : World) (next : World → Script) :
    (r.andThen s next).writes =
      r.writes ++ if r.returns then (next (run World.exec s r.writes)).writes else [] := by
  unfold Script.andThen
  split_ifs <;> simp

@[simp] theorem andThen_returns (r : Script) (s : World) (next : World → Script) :
    (r.andThen s next).returns = (r.returns && (next (run World.exec s r.writes)).returns) := by
  unfold Script.andThen
  split_ifs with h <;> simp [h]

theorem isFile_checkOrCreateDir {mkdirs : Bool} {uid : ℤ} :
    ∀ w ∈ (checkOrCreateDir mkdirs uid s).writes, w.isFile = true := by
  intro w hw
  unfold checkOrCreateDir at hw
  split_ifs at hw
  · cases hw
  · rw [List.mem_singleton.mp hw]; rfl
  · cases hw

theorem isFile_createAkkaUserConf {uid port : ℤ} :
    ∀ w ∈ (createAkkaUserConfIfNotExistant uid port s).writes, w.isFile = true := by
  intro w hw
  unfold createAkkaUserConfIfNotExistant at hw
  split_ifs at hw
  · cases hw
  · rw [List.mem_singleton.mp hw]; rfl
  · cases hw

theorem isFile_performChecks {mkdirs : Bool} {uid port : ℤ} :
    ∀ w ∈ (performChecks mkdirs uid port s).writes, w.isFile = true := by
  intro w hw
  rw [performChecks, andThen_writes, List.mem_append] at hw
  rcases hw with hw | hw
  · exact isFile_checkOrCreateDir w hw
  · exact isFile_createAkkaUserConf w hw

/-- The checks raise only if the home directory cannot be made. -/
theorem performChecks_returns (uid port : ℤ) (s : World) :
    (performChecks true uid port s).returns = true := by
  rw [performChecks, andThen_returns]
  refine Bool.and_eq_true_iff.mpr ⟨rfl, ?_⟩
  have hhome : uid ∈ (run World.exec s (checkOrCreateDir true uid s).writes).homes := by
    by_cases h : uid ∈ s.homes
    · simp [checkOrCreateDir, h]
    · simp [checkOrCreateDir, h, World.exec]
  unfold createAkkaUserConfIfNotExistant
  split_ifs
  · rfl
  · rfl

end Segments

/-! ### The outcome of a call -/

/-- What a call that gets to the writes `p` makes of a view. -/
inductive Outcome (uid : ℤ) (v : View) (p : List Write) : View → Prop where
  | same (hs : ¬ StoredAs .uid p) : Outcome uid v p v
  | port (num : ℤ) (hn : num ∉ v.ports) (hu : uid ∉ v.uids) (hs : ¬ StoredAs .uid p) :
      Outcome uid v p ⟨v.ports ++ [num], v.uids, v.accounts⟩
  /-- cut off between the uid and the account -/
  | uid (num : ℤ) (hn : num ∉ v.ports) (hu : uid ∉ v.uids) (hs : StoredAs .uid p)
      (ha : ¬ StoredAs .account p) :
      Outcome uid v p ⟨v.ports ++ [num], v.uids ++ [uid], v.accounts⟩
  | account (num : ℤ) (hn : num ∉ v.ports) (hu : uid ∉ v.uids) (ha : StoredAs .account p)
      (acc : SvdAccount) (hacc : acc.uid = uid) (hport : acc.accountManagerPort = num) :
      Outcome uid v p ⟨v.ports ++ [num], v.uids ++ [uid], v.accounts ++ [acc]⟩

/-- `randomUUID` gives uuids that are not in use. -/
def Env (s : World) (c : Call) : Prop :=
  ∀ a ∈ c.attempts, s.ports.find a.port.uuid = none ∧ s.uids.find a.uid.uuid = none ∧
    s.accounts.find a.account.uuid = none

section Call

variable {s : World} {c : Call} {a : Attempt} {more : List Attempt} {port : ℤ} {p : List Write}

theorem userUIDRegistered_iff (s : World) (num : ℤ) :
    userUIDRegistered s.uids num = true ↔ num ∈ (view s).uids := by
  unfold userUIDRegistered
  rw [ite_not_isEmpty]
  simp [view, values, classQueryCollection]

theorem prefix_append_cases {α : Type} {l l' : List α} {q : List α} (h : q <+: l ++ l') :
    q <+: l ∨ ∃ q', q' <+: l' ∧ q = l ++ q' := by
  rcases List.prefix_or_prefix_of_prefix h (List.prefix_append l l') with h1 | ⟨q', rfl⟩
  · exact .inl h1
  · exact .inr ⟨q', (List.prefix_append_right_inj l).mp h, rfl⟩

/-- The parts of a call for a uid that is not registered. -/
def newScript (c : Call) (a : Attempt) (port : ℤ) (s : World) : Script :=
  (portScript a.port port s).andThen s fun s =>
    (registerUserUID a.uid c.uid s).andThen s fun s =>
      (performChecks a.mkdirs c.uid port s).andThen s fun s =>
        accountScript a.account c.name c.uid port s

/-- The port that was drawn is not registered, so there is no second try. -/
theorem script_new (hc : c.attempts = a :: more)
    (hport : randomUserPort s.ports a.draws = some port) (hu : c.uid ∉ (view s).uids) :
    c.script s = some (newScript c a port s) := by
  have hfree := (randomUserPort_spec hport).2
  have hnew : userUIDRegistered s.uids c.uid = false := by
    rw [← Bool.not_eq_true, userUIDRegistered_iff]; exact hu
  simp only [Call.script, hc, registerUserAccount, hport, hnew, hfree, Bool.not_false, if_true,
    Option.map_some]
  rfl

/-- What comes after the uid record, cut off anywhere: `v` is the view before the call, and `q` are
the writes up to here. -/
theorem cut_afterUid (hs : Sounds s) {v : View}
    (hv : view s = ⟨v.ports ++ [port], v.uids ++ [c.uid], v.accounts⟩)
    (hport : port ∉ v.ports) (hu : c.uid ∉ v.uids) (hna : s.accounts.find a.account.uuid = none)
    {q : List Write} (hq : StoredAs .uid q) (hq' : ¬ StoredAs .account q)
    (hp : p <+: ((performChecks a.mkdirs c.uid port s).andThen s fun s =>
      accountScript a.account c.name c.uid port s).writes) :
    Sounds (run World.exec s p) ∧ Outcome c.uid v (q ++ p) (view (run World.exec s p)) := by
  rw [andThen_writes] at hp
  rcases prefix_append_cases hp with h1 | ⟨q1, h1, rfl⟩
  · -- in the files
    have hfile : ∀ w ∈ p, w.isFile = true := fun w hw => isFile_performChecks w (h1.subset hw)
    refine ⟨sounds_files hs hfile, ?_⟩
    rw [view_files hfile, hv]
    refine .uid port hport hu (storedAs_append.mpr (.inl hq)) fun h => ?_
    exact (storedAs_append.mp h).elim hq' (not_storedAs_files (fun _ => rfl) hfile)
  · -- in the account record
    have hfile : ∀ w ∈ (performChecks a.mkdirs c.uid port s).writes, w.isFile = true :=
      isFile_performChecks
    have hno : ¬ StoredAs .account (q ++ (performChecks a.mkdirs c.uid port s).writes) := fun h =>
      (storedAs_append.mp h).elim hq' (not_storedAs_files (fun _ => rfl) hfile)
    rw [run_append, ← List.append_assoc]
    set s1 := run World.exec s (performChecks a.mkdirs c.uid port s).writes
    have hna1 : s1.accounts.find a.account.uuid = none := by
      rw [(run_files s hfile).2.2]; exact hna
    have h1' : q1 <+: (accountScript a.account c.name c.uid port s1).writes := by
      split_ifs at h1
      · exact h1
      · rw [List.prefix_nil.mp h1]; exact List.nil_prefix
    obtain ⟨hs1, ⟨hn, hv1⟩ | ⟨hy, hv1⟩⟩ := cut_account (sounds_files hs hfile) hna1 h1'
    · refine ⟨hs1, ?_⟩
      rw [hv1, view_files hfile, hv]
      refine .uid port hport hu ?_ fun h => (storedAs_append.mp h).elim hno hn
      exact storedAs_append.mpr (.inl (storedAs_append.mpr (.inl hq)))
    · refine ⟨hs1, ?_⟩
      rw [hv1, view_files hfile, hv]
      exact .account port hport hu (storedAs_append.mpr (.inr hy)) _ rfl rfl

/-- What comes after the port record, cut off anywhere. -/
theorem cut_afterPort (hs : Sounds s) {v : View}
    (hv : view s = { v with ports := v.ports ++ [port] }) (hport : port ∉ v.ports)
    (hu : c.uid ∉ v.uids) (hnu : s.uids.find a.uid.uuid = none)
      (hna : s.accounts.find a.account.uuid = none) {q : List Write}
    (hp : p <+: ((registerUserUID a.uid c.uid s).andThen s fun s =>
      (performChecks a.mkdirs c.uid port s).andThen s fun s =>
        accountScript a.account c.name c.uid port s).writes)
    (hq : ¬ StoredAs .uid q) (hq' : ¬ StoredAs .account q) :
    Sounds (run World.exec s p) ∧ Outcome c.uid v (q ++ p) (view (run World.exec s p)) := by
  have hacc : ∀ {ws : List (DbWrite SvdUserUID)}, ¬ StoredAs .account (q ++ ws.map Write.uid) := by
    intro ws h
    rcases storedAs_append.mp h with h | ⟨i, hi⟩
    · exact hq' h
    · simp at hi
  rw [andThen_writes] at hp
  rcases prefix_append_cases hp with h1 | ⟨q1, h1, rfl⟩
  · -- in the uid record
    obtain ⟨hs1, -, -, ⟨hno, hv1⟩ | ⟨hyes, hv1⟩⟩ := cut_uid hs hnu c.uid h1
    · refine ⟨hs1, ?_⟩
      rw [hv1, hv]
      exact .port port hport hu fun h => (storedAs_append.mp h).elim hq hno
    · obtain ⟨ws, -, rfl⟩ := List.prefix_map_iff.mp h1
      refine ⟨hs1, ?_⟩
      rw [hv1, hv]
      exact .uid port hport hu (storedAs_append.mpr (.inr hyes)) hacc
  · obtain ⟨hs1, hsa, hst, hv1⟩ := full_uid hs hnu c.uid
    rw [run_append, ← List.append_assoc]
    rw [if_pos (show (registerUserUID a.uid c.uid s).returns = true from rfl)] at h1
    have hna1 := (hsa.find a.account.uuid).trans hna
    exact cut_afterUid hs1 (by rw [hv1, hv]) hport hu hna1 (storedAs_append.mpr (.inr hst)) hacc h1

/-- **A call for a new uid, cut off anywhere.** -/
theorem cut_newScript (hs : Sounds s) (hport : randomUserPort s.ports a.draws = some port)
    (hu : c.uid ∉ (view s).uids)
    (hn : s.ports.find a.port.uuid = none ∧ s.uids.find a.uid.uuid = none ∧
      s.accounts.find a.account.uuid = none) (hp : p <+: (newScript c a port s).writes) :
    Sounds (run World.exec s p) ∧ Outcome c.uid (view s) p (view (run World.exec s p)) := by
  have hfree : port ∉ (view s).ports := userPortRegistered_eq_false.mp (randomUserPort_spec hport).2
  have huid : ∀ {ws : List (DbWrite SvdUserPort)}, ¬ StoredAs .uid (ws.map Write.port) := by
    rintro ws ⟨i, hi⟩; simp at hi
  have hacc : ∀ {ws : List (DbWrite SvdUserPort)}, ¬ StoredAs .account (ws.map Write.port) := by
    rintro ws ⟨i, hi⟩; simp at hi
  rw [newScript, andThen_writes] at hp
  rcases prefix_append_cases hp with h1 | ⟨q, h1, rfl⟩
  · obtain ⟨hs1, -, -, ⟨-, hv⟩ | ⟨-, hv⟩⟩ := cut_port hs hn.1 port h1
    · obtain ⟨ws, -, rfl⟩ := List.prefix_map_iff.mp h1
      exact ⟨hs1, by rw [hv]; exact .same huid⟩
    · obtain ⟨ws, -, rfl⟩ := List.prefix_map_iff.mp h1
      exact ⟨hs1, by rw [hv]; exact .port port hfree hu huid⟩
  · obtain ⟨hs1, hsu, hsa, hv1⟩ := full_port hs hn.1 port
    rw [run_append]
    exact cut_afterPort hs1 hv1 hfree hu (by rw [hsu.find]; exact hn.2.1)
      (by rw [hsa.find]; exact hn.2.2) h1 huid hacc

/-- The writes that a call gets to from `s`: none while it is drawing a port. -/
def Call.reached (c : Call) (s : World) : List Write := (c.script s).elim [] c.performed

theorem step_eq (s : World) (c : Call) : step s c = run World.exec s (c.reached s) := by
  unfold step Call.reached
  rcases c.script s with _ | r
  · rfl
  · rfl

theorem performed_prefix (c : Call) (r : Script) : c.performed r <+: r.writes := by
  unfold Call.performed
  rcases c.cut with _ | k
  · exact List.prefix_rfl
  · exact List.take_prefix k r.writes

/-- What a call does by what it finds: it is still drawing, the uid is new, the uid has no account,
or it has one. -/
theorem script_cases (s : World) (c : Call) :
    c.script s = none ∨
    (∃ a more port, c.attempts = a :: more ∧ randomUserPort s.ports a.draws = some port ∧
      ((c.uid ∉ (view s).uids ∧ c.script s = some (newScript c a port s)) ∨
        (c.uid ∈ (view s).uids ∧ accountsOf c.uid s = [] ∧ c.script s = some ⟨[], false⟩) ∨
        ∃ acc, c.uid ∈ (view s).uids ∧ acc ∈ accountsOf c.uid s ∧
          c.script s = some (performChecks a.mkdirs c.uid acc.accountManagerPort s))) := by
  rcases hc : c.attempts with _ | ⟨a, more⟩
  · left; simp only [Call.script, hc, registerUserAccount]
  rcases hport : randomUserPort s.ports a.draws with _ | port
  · left; simp only [Call.script, hc, registerUserAccount, hport]
  refine .inr ⟨a, more, port, rfl, hport, ?_⟩
  by_cases hu : c.uid ∈ (view s).uids
  · right
    have hreg := (userUIDRegistered_iff s c.uid).mpr hu
    rcases hacc : accountsOf c.uid s with _ | ⟨acc, accs⟩
    · left
      refine ⟨hu, rfl, ?_⟩
      simp [Call.script, hc, registerUserAccount, hport, hreg, hacc]
    · right
      refine ⟨acc, hu, by simp, ?_⟩
      simp [Call.script, hc, registerUserAccount, hport, hreg, hacc]
  · exact .inl ⟨hu, script_new hc hport hu⟩

/-- **The outcome of every call, cut off anywhere.** -/
theorem step_outcome (hs : Sounds s) (hn : Env s c) :
    Sounds (step s c) ∧ Outcome c.uid (view s) (c.reached s) (view (step s c)) := by
  rw [step_eq]
  have hpre : ∀ r, c.script s = some r → c.reached s <+: r.writes := by
    intro r hr
    unfold Call.reached
    rw [hr]
    exact performed_prefix c r
  have hnothing : c.reached s = [] → Sounds (run World.exec s (c.reached s)) ∧
      Outcome c.uid (view s) (c.reached s) (view (run World.exec s (c.reached s))) := by
    intro h
    rw [h]
    exact ⟨hs, .same (by simp [StoredAs])⟩
  rcases script_cases s c with h | ⟨a, more, port, hc, hport, ⟨hu, h⟩ | ⟨-, -, h⟩ | ⟨acc, -, -, h⟩⟩
  · exact hnothing (by simp [Call.reached, h])
  · exact cut_newScript hs hport hu (hn a (by simp [hc])) (hpre _ h)
  · exact hnothing (List.prefix_nil.mp (hpre _ h))
  · have hfile : ∀ w ∈ c.reached s, w.isFile = true := fun w hw =>
      isFile_performChecks w ((hpre _ h).subset hw)
    obtain ⟨e1, e2, e3⟩ := run_files s hfile
    have hview : view (run World.exec s (c.reached s)) = view s := by unfold view; rw [e1, e2, e3]
    refine ⟨by unfold Sounds; rw [e1, e2, e3]; exact hs, ?_⟩
    rw [hview]
    exact .same (not_storedAs_files (fun _ => rfl) hfile)

end Call

/-! ### Consistency -/

/-- One record for each uid, distinct manager ports, recorded as user ports. -/
structure Consistent (v : View) : Prop where
  uids : v.uids.Nodup
  accounts : (v.accounts.map (·.uid)).Nodup
  ports : (v.accounts.map (·.accountManagerPort)).Nodup
  recorded : ∀ a ∈ v.accounts, a.accountManagerPort ∈ v.ports

/-- What holds in every run, also after calls that were cut off. -/
structure Inv (v : View) : Prop extends Consistent v where
  owned : ∀ a ∈ v.accounts, a.uid ∈ v.uids

/-- The uid is registered and has no account. -/
def Stuck (uid : ℤ) (v : View) : Prop := uid ∈ v.uids ∧ ∀ a ∈ v.accounts, a.uid ≠ uid

/-- No call is cut off after it has stored the uid and before it has stored the account. -/
def NotCutBetween (s : World) (c : Call) : Prop :=
  StoredAs .uid (c.reached s) → StoredAs .account (c.reached s)

section Outcomes

variable {v v' : View} {uid u : ℤ} {p : List Write}

theorem nodup_concat {α : Type} {l : List α} {a : α} (h : l.Nodup) (ha : a ∉ l) :
    (l ++ [a]).Nodup := by
  rw [List.nodup_append]
  refine ⟨h, List.nodup_singleton a, fun b hb b' hb' hbb => ?_⟩
  rw [hbb, List.mem_singleton.mp hb'] at hb
  exact ha hb

theorem Outcome.mem_accounts (ho : Outcome uid v p v') {acc : SvdAccount} (h : acc ∈ v.accounts) :
    acc ∈ v'.accounts := by
  cases ho with
  | same => exact h
  | port num => exact h
  | uid num => exact h
  | account num => exact List.mem_append_left _ h

theorem Outcome.exists_account (ho : Outcome uid v p v') (hu : StoredAs .uid p)
    (ha : StoredAs .account p) : ∃ acc ∈ v'.accounts, acc.uid = uid := by
  cases ho with
  | same hs => exact absurd hu hs
  | port num _ _ hs => exact absurd hu hs
  | uid num _ _ _ hno => exact absurd ha hno
  | account num _ _ _ acc hacc => exact ⟨acc, by simp, hacc⟩

theorem Inv.outcome (h : Inv v) (ho : Outcome uid v p v') : Inv v' := by
  cases ho with
  | same => exact h
  | port num =>
    exact ⟨⟨h.uids, h.accounts, h.ports, fun a ha => List.mem_append_left _ (h.recorded a ha)⟩,
      h.owned⟩
  | uid num _ hu =>
    exact ⟨⟨nodup_concat h.uids hu, h.accounts, h.ports,
      fun a ha => List.mem_append_left _ (h.recorded a ha)⟩,
      fun a ha => List.mem_append_left _ (h.owned a ha)⟩
  | account num hn hu ha acc hacc hport =>
    refine ⟨⟨nodup_concat h.uids hu, ?_, ?_, fun a hm => ?_⟩, fun a hm => ?_⟩
    · rw [List.map_append]
      refine nodup_concat h.accounts fun hm => ?_
      obtain ⟨a, hm, he⟩ := List.mem_map.mp hm
      have he' : a.uid = uid := he.trans hacc
      exact hu (he' ▸ h.owned a hm)
    · rw [List.map_append]
      refine nodup_concat h.ports fun hm => ?_
      obtain ⟨a, hm, he⟩ := List.mem_map.mp hm
      have he' : a.accountManagerPort = num := he.trans hport
      exact hn (he' ▸ h.recorded a hm)
    · rcases List.mem_append.mp hm with hm | hm
      · exact List.mem_append_left _ (h.recorded a hm)
      · rw [List.mem_singleton.mp hm, hport]; simp
    · rcases List.mem_append.mp hm with hm | hm
      · exact List.mem_append_left _ (h.owned a hm)
      · rw [List.mem_singleton.mp hm, hacc]; simp

/-- A uid that is stuck stays stuck. -/
theorem Stuck.outcome (h : Stuck u v) (ho : Outcome uid v p v') : Stuck u v' := by
  cases ho with
  | same => exact h
  | port num => exact h
  | uid num _ hu => exact ⟨List.mem_append_left _ h.1, h.2⟩
  | account num hn hu ha acc hacc hport =>
    refine ⟨List.mem_append_left _ h.1, fun a hm => ?_⟩
    rcases List.mem_append.mp hm with hm | hm
    · exact h.2 a hm
    · rw [List.mem_singleton.mp hm, hacc]
      rintro rfl
      exact hu h.1

/-- A cut between the uid and the account is what makes a uid stuck. -/
theorem stuck_of_cut (h : Inv v) (ho : Outcome uid v p v') (hu : StoredAs .uid p)
    (ha : ¬ StoredAs .account p) : Stuck uid v' := by
  cases ho with
  | same hs => exact absurd hu hs
  | port num _ _ hs => exact absurd hu hs
  | uid num _ hnew => exact ⟨by simp, fun a hm he => hnew (he ▸ h.owned a hm)⟩
  | account num _ _ ha' => exact absurd ha' ha

theorem not_stuck_outcome (h : ¬ Stuck u v) (ho : Outcome uid v p v')
    (hc : StoredAs .uid p → StoredAs .account p) : ¬ Stuck u v' := by
  cases ho with
  | same => exact h
  | port num => exact h
  | uid num _ _ hs ha => exact absurd (hc hs) ha
  | account num hn hu ha acc hacc hport =>
    rintro ⟨hm, hno⟩
    rcases List.mem_append.mp hm with hm | hm
    · exact h ⟨hm, fun a ha' => hno a (List.mem_append_left _ ha')⟩
    · exact hno acc (by simp) (hacc.trans (List.mem_singleton.mp hm).symm)

end Outcomes

/-! ### Calling again -/

/-- A call that is not cut off: it finds a port and can make the directory. -/
structure Ready (s : World) (c : Call) : Prop where
  env : Env s c
  uncut : c.cut = none
  port : ∃ a more, c.attempts = a :: more ∧ (randomUserPort s.ports a.draws).isSome = true ∧
    a.mkdirs = true

/-- The records fit together, and a call that is not cut off completes the registration: it does not
raise, and the uid has exactly one account afterwards. -/
structure RegistrationLaw (s : World) : Prop where
  consistent : Consistent (view s)
  again : ∀ c, Ready s c → (∃ r, c.script s = some r ∧ r.returns = true) ∧
    (accountsOf c.uid (step s c)).length = 1

section Again

variable {s : World} {c : Call}

theorem accountsOf_eq (uid : ℤ) (s : World) :
    accountsOf uid s = (view s).accounts.filter fun a => a.uid == uid := rfl

theorem length_accountsOf (h : Consistent (view s)) {acc : SvdAccount}
    (ha : acc ∈ (view s).accounts) :
    (accountsOf acc.uid s).length = 1 := by
  have hcount : ((view s).accounts.map (·.uid)).count acc.uid = 1 :=
    List.count_eq_one_of_mem h.accounts (List.mem_map_of_mem ha)
  rw [← hcount, accountsOf_eq, ← List.countP_eq_length_filter, List.count, List.countP_map]
  rfl

/-- The parts of a call for a new uid that can make its directory: it returns, with the account. -/
theorem newScript_completes {a : Attempt} (c : Call) (port : ℤ) (hs : Sounds s)
    (hm : a.mkdirs = true) (hn : s.ports.find a.port.uuid = none ∧ s.uids.find a.uid.uuid = none ∧
      s.accounts.find a.account.uuid = none) :
    (newScript c a port s).returns = true ∧ StoredAs .uid (newScript c a port s).writes ∧
      StoredAs .account (newScript c a port s).writes := by
  obtain ⟨hs1, hsu, hsa, -⟩ := full_port hs hn.1 port
  set s1 := run World.exec s (portScript a.port port s).writes with hs1e
  have hnu : s1.uids.find a.uid.uuid = none := by rw [hsu.find]; exact hn.2.1
  obtain ⟨-, hsa2, hstu, -⟩ := full_uid hs1 hnu c.uid
  set s2 := run World.exec s1 (registerUserUID a.uid c.uid s1).writes with hs2e
  have hchecks := performChecks_returns c.uid port s2
  obtain ⟨-, -, e3⟩ := run_files (p := (performChecks true c.uid port s2).writes) s2
    isFile_performChecks
  set s3 := run World.exec s2 (performChecks true c.uid port s2).writes with hs3e
  have hfind : s3.accounts.find a.account.uuid = none := by
    rw [e3, hsa2.find, hsa.find]; exact hn.2.2
  have hstored : StoredAs .account (accountScript a.account c.name c.uid port s3).writes :=
    (storedAs_map fun _ _ h => Write.account.inj h).mpr (stored_saveWrites hfind)
  have hr1 : (portScript a.port port s).returns = true := rfl
  have hr2 : (registerUserUID a.uid c.uid s1).returns = true := rfl
  have hr3 : (accountScript a.account c.name c.uid port s3).returns = true := rfl
  simp only [newScript, andThen_returns, andThen_writes, hm, hr1, ← hs1e, hr2, ← hs2e, hchecks,
    ← hs3e, hr3, if_true, Bool.and_self, true_and]
  refine ⟨storedAs_append.mpr (.inr (storedAs_append.mpr (.inl hstu))), ?_⟩
  exact storedAs_append.mpr (.inr (storedAs_append.mpr (.inr (storedAs_append.mpr (.inr hstored)))))

/-- **A uid that is not stuck can be registered by calling again.** -/
theorem again_of_not_stuck (hs : Sounds s) (hi : Inv (view s)) (hns : ¬ Stuck c.uid (view s))
    (hr : Ready s c) : (∃ r, c.script s = some r ∧ r.returns = true) ∧
      (accountsOf c.uid (step s c)).length = 1 := by
  obtain ⟨-, ho⟩ := step_outcome hs hr.env
  have hi' : Inv (view (step s c)) := hi.outcome ho
  obtain ⟨a, more, hc, hport, hm⟩ := hr.port
  obtain ⟨port, hport⟩ := Option.isSome_iff_exists.mp hport
  have hn := hr.env a (by simp [hc])
  by_cases hu : c.uid ∈ (view s).uids
  · -- the uid has an account, and the checks return
    have hacc : ∃ acc ∈ (view s).accounts, acc.uid = c.uid := by
      by_contra hno
      push Not at hno
      exact hns ⟨hu, hno⟩
    obtain ⟨acc, hmem, hacc⟩ := hacc
    rcases script_cases s c with h |
      ⟨a', more', port', hc', -, ⟨hu', -⟩ | ⟨-, hno, -⟩ | ⟨acc', -, -, h⟩⟩
    · exfalso
      simp [Call.script, hc, registerUserAccount, hport,
        (userUIDRegistered_iff s c.uid).mpr hu] at h
      split at h <;> cases h
    · exact absurd hu hu'
    · rw [accountsOf_eq, List.filter_eq_nil_iff] at hno
      exact absurd hacc (by simpa using hno acc hmem)
    · obtain ⟨rfl, rfl⟩ := List.cons.inj (hc.symm.trans hc')
      refine ⟨⟨_, h, by rw [hm]; exact performChecks_returns _ _ s⟩, ?_⟩
      rw [← hacc]
      exact length_accountsOf hi'.toConsistent (ho.mem_accounts hmem)
  · -- the whole call is made
    have hscript := script_new hc hport hu
    obtain ⟨hret, hstu, hsta⟩ := newScript_completes c port hs hm hn
    refine ⟨⟨_, hscript, hret⟩, ?_⟩
    have hreached : c.reached s = (newScript c a port s).writes := by
      simp [Call.reached, hscript, Call.performed, hr.uncut]
    rw [hreached] at ho
    obtain ⟨acc, hmem, hacc⟩ := ho.exists_account hstu hsta
    rw [← hacc]
    exact length_accountsOf hi'.toConsistent hmem

/-- A call for a uid that is stuck raises as soon as it has its port. -/
theorem script_stuck (hst : Stuck c.uid (view s)) {r : Script} (hr : c.script s = some r) :
    r = ⟨[], false⟩ := by
  have hno : accountsOf c.uid s = [] := by
    rw [accountsOf_eq, List.filter_eq_nil_iff]
    simpa using hst.2
  rcases script_cases s c with h | ⟨a, more, port, -, -, ⟨hu, -⟩ | ⟨-, -, h⟩ | ⟨acc, -, hacc, -⟩⟩
  · rw [h] at hr; cases hr
  · exact absurd hst.1 hu
  · exact Option.some.inj (hr.symm.trans h)
  · rw [hno] at hacc; cases hacc

end Again

/-! ### Runs -/

section Runs

variable {homes : List ℤ} {confs : List (ℤ × ℤ)} {s : World} {cs : List Call}

/-- What every run keeps. -/
def Holds (s : World) : Prop := Sounds s ∧ Inv (view s)

theorem holds_init (homes : List ℤ) (confs : List (ℤ × ℤ)) : Holds (init homes confs) := by
  have hsound : ∀ {T : Type}, Sound (DBClient.init : DBClient T) := fun o ho => by cases ho
  refine ⟨⟨hsound, hsound, hsound⟩, ⟨⟨?_, ?_, ?_, ?_⟩, ?_⟩⟩
  · exact List.nodup_nil
  · exact List.nodup_nil
  · exact List.nodup_nil
  · intro a ha; cases ha
  · intro a ha; cases ha

theorem holds_step {c : Call} (h : Holds s) (hn : Env s c) : Holds (step s c) := by
  obtain ⟨hs, ho⟩ := step_outcome h.1 hn
  exact ⟨hs, h.2.outcome ho⟩

theorem holds_run (h : Holds s) (henv : Meets step Env s cs) : Holds (run step s cs) :=
  henv.invariant (fun _ _ h hn => holds_step h hn) h

/-- Without a cut between the uid and the account, no uid gets stuck. -/
theorem not_stuck_run : ∀ {cs : List Call} {s : World}, Holds s → (∀ u, ¬ Stuck u (view s)) →
    Meets step Env s cs → Meets step NotCutBetween s cs → ∀ u, ¬ Stuck u (view (run step s cs))
  | [], _, _, hns, _, _ => hns
  | c :: cs, s, h, hns, henv, hcut => by
    have ho := (step_outcome h.1 henv.1).2
    rw [run_cons]
    refine not_stuck_run (holds_step h henv.1) (fun u => ?_) henv.2 hcut.2
    exact not_stuck_outcome (hns u) ho hcut.1

theorem stuck_run {u : ℤ} : ∀ {cs : List Call} {s : World}, Holds s → Stuck u (view s) →
    Meets step Env s cs → Stuck u (view (run step s cs))
  | [], _, _, hst, _ => hst
  | _ :: _, _, h, hst, henv => by
    rw [run_cons]
    exact stuck_run (holds_step h henv.1) (hst.outcome (step_outcome h.1 henv.1).2) henv.2

/-- **Registrations.** In every run the records fit together, wherever its calls are cut off. If no
call is cut off after the uid record and before the account record, every registration can be
completed by calling again. A call that is cut off there, after such a run, ends this for its uid:
however the run goes on, the uid has no account, and every call for it that finds a port raises. -/
theorem registrationLaw_after (homes : List ℤ) (confs : List (ℤ × ℤ)) (cs : List Call)
    (henv : Meets step Env (init homes confs) cs) :
    Consistent (view (run step (init homes confs) cs)) ∧
    (Meets step NotCutBetween (init homes confs) cs →
      RegistrationLaw (run step (init homes confs) cs)) ∧
    ∀ pre c post, cs = pre ++ c :: post → ¬ NotCutBetween (run step (init homes confs) pre) c →
      accountsOf c.uid (run step (init homes confs) cs) = [] ∧
      ∀ c' : Call, c'.uid = c.uid → ∀ r, c'.script (run step (init homes confs) cs) = some r →
        r.returns = false := by
  have h := holds_run (holds_init homes confs) henv
  refine ⟨h.2.toConsistent, fun hcut => ⟨h.2.toConsistent, fun c hr => ?_⟩, ?_⟩
  · refine again_of_not_stuck h.1 h.2 (not_stuck_run (holds_init homes confs) ?_ henv hcut c.uid) hr
    rintro u ⟨hu, -⟩
    cases hu
  · rintro pre c post rfl hc
    obtain ⟨hu, ha⟩ := Classical.not_imp.mp hc
    rw [meets_append, meets_cons] at henv
    have hpre := holds_run (holds_init homes confs) henv.1
    have hst := stuck_of_cut hpre.2 (step_outcome hpre.1 henv.2.1).2 hu ha
    have hend := stuck_run (holds_step hpre henv.2.1) hst henv.2.2
    rw [run_append, run_cons]
    refine ⟨?_, fun c' hc' r hr => ?_⟩
    · rw [accountsOf_eq, List.filter_eq_nil_iff]
      simpa using hend.2
    · rw [script_stuck (hc' ▸ hend) hr]

end Runs

/-- What the `k`-th call meets: the port `10000 + k` is free,
and all goes well with the directory. -/
def meeting (k : ℕ) : Attempt :=
  ⟨[[⟨Fin.ofNat _ k, true⟩]], ⟨⟨0, k⟩, 0⟩, ⟨⟨1, k⟩, 0⟩, ⟨⟨2, k⟩, 0⟩, true⟩

/-- The registration of 501 is cut off after its port is stored, and made again; then comes 502. -/
def cutAndAgain : List Call :=
  [⟨"one", 501, [meeting 1], some 3⟩, ⟨"one", 501, [meeting 2], none⟩,
    ⟨"two", 502, [meeting 3], none⟩]

/-- The registration of 501 is cut off at the akka configuration:
the port and the uid are stored. -/
def cutAtConf : List Call := [⟨"one", 501, [meeting 1], some 11⟩]

theorem registrationLaw_cutAndAgain :
    RegistrationLaw (run step (init [] []) cutAndAgain) ∧
      (view (run step (init [] []) cutAndAgain)).ports = [10001, 10002, 10003] ∧
      (view (run step (init [] []) cutAndAgain)).accounts.map (·.uid) = [501, 502] := by
  have henv : Meets step Env (init [] []) cutAndAgain := by
    refine ⟨?_, ?_, ?_, trivial⟩ <;>
      · intro a ha
        rw [List.mem_singleton.mp ha]
        exact ⟨by decide, by decide, by decide⟩
  refine ⟨(registrationLaw_after [] [] cutAndAgain henv).2.1 ⟨?_, ?_, ?_, trivial⟩, by
    decide, by decide⟩
  · -- only the port is written
    rintro ⟨i, hi⟩
    have hk := List.mem_map_of_mem (f := Write.ctorIdx) hi
    have hports : (Call.reached ⟨"one", 501, [meeting 1], some 3⟩ (init [] [])).map Write.ctorIdx =
      [0, 0, 0] := by decide
    rw [hports] at hk
    simp [Write.ctorIdx] at hk
  · exact fun _ => ⟨⟨0, newAccount (meeting 2).account "one" 501 10002⟩, by decide⟩
  · exact fun _ => ⟨⟨1, newAccount (meeting 3).account "two" 502 10003⟩, by decide⟩

/-- The call that is made again finds the uid and no account, and raises. -/
theorem not_registrationLaw_cutAtConf :
    Meets step Env (init [] []) cutAtConf ∧
      ¬ RegistrationLaw (run step (init [] []) cutAtConf) := by
  refine ⟨⟨fun a ha => ?_, trivial⟩, fun h => ?_⟩
  · rw [List.mem_singleton.mp ha]
    exact ⟨by decide, by decide, by decide⟩
  · have hready : Ready (run step (init [] []) cutAtConf) ⟨"one", 501, [meeting 2], none⟩ := by
      refine ⟨fun a ha => ?_, rfl, meeting 2, [], rfl, by decide, rfl⟩
      rw [List.mem_singleton.mp ha]
      exact ⟨by decide, by decide, by decide⟩
    have hlen := (h.again _ hready).2
    exact absurd hlen (by decide)

end ServeD.Managers.Registration
