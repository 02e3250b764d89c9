import ServeD.Db.Refinement
import ServeD.Managers.Accounts
import ServeD.Managers.Keys
import ServeD.Managers.Registration

/-! # Booting the account managers

`preStart` of `SvdAccountManager` with the account that it loads and `addDefaultAccessKey`,
`Shutdown`, the messages about keys, and what the accounts manager hears of it all: any number of
users, booted and stopped in any order, each with a database of its own that is opened again at
every boot.

A user is meant to be simple (`Register`): a uuid from its first boot on, and one key. The key comes
from the first `AddKey` after the last `RemoveKey`, whatever keys these name, and that is mostly the
default key of the first boot.

* `boots_register`: every run of the managers with their databases is one of the registers;
* `alive_exact`: if no announcement is lost, the accounts manager has an account as often as it has
  been booted, not headless, since a manager that was not headless was last shut down, as soon as
  all announcements are there. -/

namespace ServeD.Managers.Boots

open ServeD.Lib.ObjectStore ServeD.Lib.Runs ServeD.Lib.ImmutableSets
open ServeD.Lib.ImmutableSets.ImmutableSet (empty set1)
open ServeD.Api.Records ServeD.Api.Keys ServeD.Db.Client ServeD.Db.Invariant
open ServeD.Managers.Keys
open ServeD.Managers.Registration (values)

/-! ### Managers -/

/-- What an account manager is told. -/
inductive Mail (K : Type) where
  | key (m : AccountMsg K)
  | shutdown
  deriving DecidableEq

structure Manager (K : Type) where
  account : SvdAccount
  headless : Bool
  mailbox : List (Mail K)

/-- A user: the classes of its database, and its manager while it runs. -/
structure User (K : Type) where
  accounts : DBClient SvdAccount
  keys : DBClient (AccountKeys K)
  manager : Option (Manager K)

/-- All users, what they have announced to the accounts manager, and what it knows. -/
structure World (K : Type) where
  users : ℤ → User K
  /-- on their way, in order -/
  announcements : ℤ → List Accounts.Msg
  accountsAlive : List SvdAccount

inductive Event (K : Type) where
  /-- some messages are there before `preStart` has come to its end -/
  | boot (uid : ℤ) (headless : Bool) (account keys : Fresh) (early : List (Mail K))
  | send (uid : ℤ) (m : Mail K)
  | receive (uid : ℤ) (new : Fresh)
  /-- the process is over -/
  | stop (uid : ℤ)
  /-- an announcement is there -/
  | arrive (uid : ℤ)
  /-- an announcement is lost -/
  | lose (uid : ℤ)
  deriving DecidableEq

def Event.isLose {K : Type} : Event K → Bool
  | .lose _ => true
  | _ => false

section Managers

variable {K : Type} [DecidableEq K]

/-- The account that `SvdUserBoot` starts the manager with. -/
def bootAccount (uid : ℤ) (headless : Bool) (new : Fresh) : SvdAccount :=
  ⟨(if headless then "a headless user " else "a boot user ") ++ toString uid, "", uid, -1, "", "",
    new.uuid, new.now⟩

/-- "load real account" -/
def loadAccount (db : DBClient SvdAccount) (bootAccount : SvdAccount) (now : ℤ) :
    DBClient SvdAccount × SvdAccount :=
  match (values db).find? fun a => a.uid == bootAccount.uid with
  | some account => (db, account)
  | none => (db.saveNew { bootAccount with userName := "Unnamed Local User", createdAt := now },
    bootAccount)

/-- `addDefaultAccessKey`, with the default key. -/
def addDefaultAccessKey (key : K) (db : DBClient (AccountKeys K)) (new : Fresh) : List (Mail K) :=
  if holdsKey (accountKeys db new).keys key then [] else [.key (.addKey ⟨"guest", key⟩)]

/-- `preStart` -/
def User.boot (key : K) (u : User K) (uid : ℤ) (headless : Bool) (account keys : Fresh)
    (early : List (Mail K)) :
    User K × List Accounts.Msg :=
  let r := loadAccount u.accounts.reconnect (bootAccount uid headless account) account.now
  let db := u.keys.reconnect
  (⟨r.1, db, some ⟨r.2, headless, early ++ addDefaultAccessKey key db keys⟩⟩,
    if !headless then [.alive r.2] else [])

variable [HashCode K]

/-- `started`, the next message. -/
def User.receive (u : User K) (new : Fresh) : User K × List Accounts.Msg :=
  match u.manager with
  | none => (u, [])
  | some m =>
    match m.mailbox with
    | [] => (u, [])
    | .shutdown :: mailbox =>
      ({ u with manager := some { m with mailbox := mailbox } }, if !m.headless
        then [.dead m.account] else [])
    | .key k :: mailbox =>
      ({ u with
          keys := (accountReceive u.keys new k).1,
          manager := some { m with mailbox := mailbox } }, [])

/-- A user after something, with what it announces. -/
def World.put (w : World K) (uid : ℤ) (r : User K × List Accounts.Msg) : World K :=
  { w with
    users := Function.update w.users uid r.1
    announcements := Function.update w.announcements uid (w.announcements uid ++ r.2) }

/-- One event, with the default key. A message to a manager that is not there is lost. -/
def step (key : K) (w : World K) : Event K → World K
  | .boot uid headless account keys early =>
    match (w.users uid).manager with
    | none => w.put uid ((w.users uid).boot key uid headless account keys early)
    | some _ => w
  | .send uid m => w.put uid
      ({ w.users uid with manager := (w.users uid).manager.map fun r =>
        { r with mailbox := r.mailbox ++ [m] } }, [])
  | .receive uid new => w.put uid ((w.users uid).receive new)
  | .stop uid => w.put uid ({ w.users uid with manager := none }, [])
  | .arrive uid =>
    match w.announcements uid with
    | [] => w
    | m :: rest =>
      { w with
        announcements := Function.update w.announcements uid rest
        accountsAlive := Accounts.step w.accountsAlive m }
  | .lose uid =>
    { w with announcements := Function.update w.announcements uid (w.announcements uid).tail }

omit [DecidableEq K] [HashCode K] in
/-- Nobody has been there yet. -/
def start : World K := ⟨fun _ => ⟨DBClient.init, DBClient.init, none⟩, fun _ => [], []⟩

/-- `randomUUID` gives a boot a uuid that no account has. -/
def Env (w : World K) : Event K → Prop
  | .boot _ _ account _ _ => ∀ uid, (w.users uid).accounts.find account.uuid = none
  | _ => True

end Managers

/-! ### Registers -/

/-- What a user is meant to be. -/
structure Register (K : Type) where
  /-- from the first boot on -/
  uuid : Option UUID
  key : Option (AccessKey K)
  /-- headless or not, and the messages to come, while it runs -/
  manager : Option (Bool × List (Mail K))
  /-- how often it has been announced alive since it was announced dead -/
  announced : ℕ

section Registers

variable {K : Type} [DecidableEq K]

/-- Whether the register has this key. -/
def Register.holds (r : Register K) (key : K) : Bool := r.key.any fun a => a.key == key

def Register.boot (key : K) (r : Register K) (headless : Bool) (uuid : UUID)
    (early : List (Mail K)) : Register K :=
  { r with
    uuid := some (r.uuid.getD uuid)
    manager := some (headless, early ++ if r.holds key then [] else [.key (.addKey ⟨"guest", key⟩)])
    announced := if !headless then r.announced + 1 else r.announced }

omit [DecidableEq K] in
def Register.receive (r : Register K) : Register K :=
  match r.manager with
  | none => r
  | some (_, []) => r
  | some (headless, .shutdown :: mailbox) =>
    { r with manager := some (headless, mailbox), announced := if !headless then 0
      else r.announced }
  | some (headless, .key (.addKey a) :: mailbox) =>
    { r with manager := some (headless, mailbox), key := r.key.or (some a) }
  | some (headless, .key (.removeKey _) :: mailbox) =>
    { r with manager := some (headless, mailbox), key := none }
  | some (headless, .key (.authorizeWithKey _) :: mailbox) =>
    { r with manager := some (headless, mailbox) }
  | some (headless, .key .listKeys :: mailbox) => { r with manager := some (headless, mailbox) }

/-- One event. -/
def turn (key : K) (rs : ℤ → Register K) : Event K → ℤ → Register K
  | .boot uid headless account _ early =>
    match (rs uid).manager with
    | none => Function.update rs uid ((rs uid).boot key headless account.uuid early)
    | some _ => rs
  | .send uid m => Function.update rs uid
      { rs uid with manager := (rs uid).manager.map fun x => (x.1, x.2 ++ [m]) }
  | .receive uid _ => Function.update rs uid (rs uid).receive
  | .stop uid => Function.update rs uid { rs uid with manager := none }
  | .arrive _ | .lose _ => rs

omit [DecidableEq K] in
def blank : ℤ → Register K := fun _ => ⟨none, none, none, 0⟩

end Registers

/-! ### The databases -/

instance : ReflBEq SvdAccount := ⟨by simp [BEq.beq]⟩

section Accounts

variable {db : DBClient SvdAccount}

/-- The uuids of the records for a uid. -/
def recorded (db : DBClient SvdAccount) (uid : ℤ) : List UUID :=
  ((values db).filter fun a => a.uid == uid).map (·.uuid)

theorem values_reconnect {T : Type} [Persistent T] {db : DBClient T} (hw : WF db) :
    values db.reconnect = values db := by
  show (load db.heap.length db.currentODB.committed).map (·.value) = _
  rw [map_value_load, hw.currentSettled]
  rfl

theorem find_reconnect {u : UUID} (hw : WF db) (h : db.find u = none) :
    db.reconnect.find u = none := by
  have hmap := congrFun (Db.Refinement.toMap_reconnect hw) u
  unfold Db.Refinement.toMap at hmap
  rw [h, Option.map_none] at hmap
  exact Option.map_eq_none_iff.mp hmap

theorem recorded_reconnect (hw : WF db) (uid : ℤ) :
    recorded db.reconnect uid = recorded db uid := by
  unfold recorded
  rw [values_reconnect hw]

theorem find_of_recorded {uid : ℤ} {u : UUID} (h : u ∈ recorded db uid) : db.find u ≠ none := by
  obtain ⟨a, ha, rfl⟩ := List.mem_map.mp h
  obtain ⟨o, ho, rfl⟩ := List.mem_map.mp (List.mem_filter.mp ha).1
  exact fun hnone => not_mem_of_find_none hnone rfl ho

/-- The account that is loaded is the one on record, or the new one is on record then. -/
theorem loadAccount_spec {o : Option UUID} (boot : SvdAccount) (hw : WF db)
    (hnew : db.find boot.uuid = none) (h : recorded db boot.uid = o.toList) (now : ℤ) :
    WF (loadAccount db boot now).1 ∧ (loadAccount db boot now).2.uid = boot.uid ∧
      (loadAccount db boot now).2.uuid = o.getD boot.uuid ∧
      recorded (loadAccount db boot now).1 boot.uid = [o.getD boot.uuid] := by
  have hfind : (values db).find? (fun a => a.uid == boot.uid) =
      ((values db).filter fun a => a.uid == boot.uid).head? := List.head?_filter.symm
  unfold recorded at h ⊢
  rcases hrecords : (values db).filter fun a => a.uid == boot.uid with _ | ⟨a, rest⟩
  · have hload : loadAccount db boot now =
        (db.saveNew { boot with userName := "Unnamed Local User", createdAt := now }, boot) := by
      unfold loadAccount
      rw [hfind, hrecords]
      rfl
    rw [hrecords] at h
    obtain rfl : o = none := Option.toList_eq_nil_iff.mp h.symm
    rw [hload]
    refine ⟨wf_saveNew hw _, rfl, rfl, ?_⟩
    have hobjects :=
      objects_saveNew_none (v := { boot with userName := "Unnamed Local User", createdAt := now })
        hw hnew
    unfold Registration.values classQueryCollection at hrecords ⊢
    rw [hobjects, List.map_append, List.filter_append, hrecords]
    simp
  · have hload : loadAccount db boot now = (db, a) := by
      unfold loadAccount
      rw [hfind, hrecords]
      rfl
    have ha : a ∈ (values db).filter fun a => a.uid == boot.uid := by
      rw [hrecords]; exact List.mem_cons_self
    rw [hload]
    rw [hrecords, List.map_cons] at h
    rcases o with _ | x
    · cases h
    · obtain ⟨hx, hrest⟩ := List.cons.inj h
      exact ⟨hw, by simpa using (List.mem_filter.mp ha).2, hx,
        by rw [hrecords, List.map_cons, hx, hrest]; rfl⟩

end Accounts

section Keys

variable {K : Type} [DecidableEq K] [HashCode K] {db : DBClient (AccountKeys K)}
    {ops : List (KeyOp K)}

/-- The key that is there after some operations. -/
def held (ops : List (KeyOp K)) : Option (AccessKey K) :=
  run (fun h o => match o with
    | .add a => h.or (some a)
    | .remove _ => none) none ops

omit [DecidableEq K] [HashCode K] in
theorem held_add (ops : List (KeyOp K)) (a : AccessKey K) :
    held (ops ++ [.add a]) = (held ops).or (some a) :=
  run_concat _ _ _

omit [DecidableEq K] [HashCode K] in
theorem held_remove (ops : List (KeyOp K)) (a : AccessKey K) : held (ops ++ [.remove a]) = none :=
  run_concat _ _ _

/-- **A set of keys is a register**, since all keys are equal. -/
theorem keysAfter_eq (ops : List (KeyOp K)) : keysAfter ops = (held ops).elim empty set1 := by
  induction ops using List.reverseRecOn with
  | nil => rfl
  | append_singleton ops o ih =>
    rw [keysAfter_concat, ih]
    cases o with
    | add a =>
      rw [held_add]
      rcases held ops with _ | b
      · rw [Option.elim_none, apply_empty]
        rfl
      · rw [Option.elim_some, apply_set1]
        rfl
    | remove a =>
      rw [held_remove]
      rcases held ops with _ | b
      · rw [Option.elim_none, apply_empty]
        rfl
      · rw [Option.elim_some, apply_set1]
        rfl

theorem accountInv_holds (h : AccountInv db ops) (new : Fresh) (k : K) :
    holdsKey (accountKeys db new).keys k = (held ops).any fun a => a.key == k := by
  rw [h.keys, keysAfter_eq]
  rcases held ops with _ | a
  · exact holdsKey_empty k
  · exact holdsKey_set1 a k

theorem accountInv_reconnect (h : AccountInv db ops) : AccountInv db.reconnect ops := by
  obtain ⟨hw, hkeys⟩ := h
  have hvalues : db.reconnect.currentODB.objects.map (·.value) =
    db.currentODB.objects.map (·.value) :=
    values_reconnect hw
  refine ⟨wf_reconnect hw.durable, ?_⟩
  rcases hkeys with ⟨hnil, rfl⟩ | ⟨o, ho, hk⟩
  · rw [hnil] at hvalues
    exact .inl ⟨List.map_eq_nil_iff.mp hvalues, rfl⟩
  · rw [ho] at hvalues
    obtain ⟨o', ho', hvalue⟩ := List.map_eq_singleton_iff.mp hvalues
    exact .inr ⟨o', ho', by rw [hvalue, hk]⟩

end Keys

/-! ### One user -/

section Refines

variable {K : Type} [DecidableEq K] [HashCode K] {uid : ℤ} {u : User K} {r : Register K}

/-- The user is the register, and its account, of this uid, has the uuid in it. -/
structure Refines (uid : ℤ) (u : User K) (r : Register K) : Prop where
  wf : WF u.accounts
  record : recorded u.accounts uid = r.uuid.toList
  keys : ∃ ops, AccountInv u.keys ops ∧ held ops = r.key
  manager : u.manager.map (fun m => (m.headless, m.mailbox)) = r.manager
  account : ∀ m, u.manager = some m → m.account.uid = uid ∧ r.uuid = some m.account.uuid

theorem Refines.holds (h : Refines uid u r) (new : Fresh) (k : K) :
    holdsKey (accountKeys u.keys new).keys k = r.holds k := by
  obtain ⟨ops, hinv, hheld⟩ := h.keys
  rw [accountInv_holds hinv, hheld]
  rfl

/-- A boot announces the account, which has the uuid of the first boot. -/
theorem Refines.boot (h : Refines uid u r) {account : Fresh}
    (hnew : u.accounts.find account.uuid = none) (key : K) (headless : Bool) (keys : Fresh)
    (early : List (Mail K)) :
    Refines uid (u.boot key uid headless account keys early).1
      (r.boot key headless account.uuid early) ∧
      ∃ a, a.uid = uid ∧ a.uuid = r.uuid.getD account.uuid ∧
        (u.boot key uid headless account keys early).2 = if !headless then [.alive a] else [] := by
  have hrecord : recorded u.accounts.reconnect uid = r.uuid.toList := by
    rw [recorded_reconnect h.wf, h.record]
  obtain ⟨hwf, huid, huuid, hrecords⟩ := loadAccount_spec (bootAccount uid headless account)
    (wf_reconnect h.wf.durable) (find_reconnect h.wf hnew) hrecord account.now
  obtain ⟨ops, hinv, hheld⟩ := h.keys
  refine ⟨⟨hwf, hrecords, ⟨ops, accountInv_reconnect hinv, hheld⟩, ?_, ?_⟩, _, huid, huuid, rfl⟩
  · unfold User.boot Register.boot addDefaultAccessKey
    dsimp only [Option.map_some]
    rw [accountInv_holds (accountInv_reconnect hinv), hheld]
    rfl
  · intro m hm
    obtain rfl := Option.some.inj hm
    exact ⟨huid, congrArg some huuid.symm⟩

theorem Refines.receive_key (h : Refines uid u r) {manager : Manager K}
    (hu : u.manager = some manager) (m : AccountMsg K) (mailbox : List (Mail K)) (new : Fresh)
    {key : Option (AccessKey K)} (hkey : ∀ ops, held ops = r.key →
      held (ops ++ (accountOp (m, new)).toList) = key) :
    Refines uid
      { u with
        keys := (accountReceive u.keys new m).1,
        manager := some { manager with mailbox := mailbox } }
      { r with manager := some (manager.headless, mailbox), key := key } := by
  obtain ⟨ops, hinv, hheld⟩ := h.keys
  refine ⟨h.wf, h.record, ⟨_, hinv.receive (m, new), hkey ops hheld⟩, rfl, fun m' hm' => ?_⟩
  obtain rfl := Option.some.inj hm'
  exact h.account manager hu

/-- `Shutdown` announces the account, and nothing else does. -/
theorem Refines.receive (h : Refines uid u r) (new : Fresh) :
    Refines uid (u.receive new).1 r.receive ∧ r.receive.uuid = r.uuid ∧
      ((u.receive new).2 = [] ∧ r.receive.announced = r.announced ∨
        ∃ a, a.uid = uid ∧ r.uuid = some a.uuid ∧ (u.receive new).2 = [.dead a] ∧
          r.receive.announced = 0) := by
  have hmanager := h.manager
  unfold User.receive Register.receive
  rcases hu : u.manager with _ | m
  · rw [hu] at hmanager
    rw [← hmanager]
    exact ⟨h, rfl, .inl ⟨rfl, rfl⟩⟩
  · rw [hu] at hmanager
    rw [← hmanager]
    obtain ⟨huid, huuid⟩ := h.account m hu
    dsimp only [Option.map_some]
    rcases hbox : m.mailbox with _ | ⟨mail, mailbox⟩
    · exact ⟨h, rfl, .inl ⟨rfl, rfl⟩⟩
    · cases mail with
      | shutdown =>
        refine ⟨⟨h.wf, h.record, h.keys, rfl, fun m' hm' => ?_⟩, rfl, ?_⟩
        · obtain rfl := Option.some.inj hm'
          exact ⟨huid, huuid⟩
        · rcases hheadless : m.headless with _ | _
          · exact .inr ⟨m.account, huid, huuid, rfl, rfl⟩
          · exact .inl ⟨rfl, rfl⟩
      | key k =>
        cases k with
        | addKey a =>
          refine ⟨h.receive_key hu _ _ new fun ops hops => ?_, rfl, .inl ⟨rfl, rfl⟩⟩
          rw [← hops]
          exact held_add ops a
        | removeKey a =>
          exact ⟨h.receive_key hu _ _ new fun ops _ => held_remove ops a, rfl, .inl ⟨rfl, rfl⟩⟩
        | authorizeWithKey k =>
          exact ⟨h.receive_key hu _ _ new
            fun ops hops => (congrArg held (List.append_nil _)).trans hops, rfl,
            .inl ⟨rfl, rfl⟩⟩
        | listKeys =>
          exact ⟨h.receive_key hu _ _ new
            fun ops hops => (congrArg held (List.append_nil _)).trans hops, rfl,
            .inl ⟨rfl, rfl⟩⟩

end Refines

/-! ### All users -/

section Simulation

variable {K : Type} [DecidableEq K] [HashCode K] {w : World K} {rs : ℤ → Register K} {uid : ℤ}

/-- A message of a user is about its account. -/
def Announces (uid : ℤ) (uuid : Option UUID) (m : Accounts.Msg) : Prop :=
  ∃ a, (m = .alive a ∨ m = .dead a) ∧ a.uid = uid ∧ uuid = some a.uuid

/-- Every user is its register, what is announced and what is known of it has its uuid,
and no two have the same. -/
structure Simulates (w : World K) (rs : ℤ → Register K) : Prop where
  user : ∀ uid, Refines uid (w.users uid) (rs uid)
  announcements : ∀ uid, ∀ m ∈ w.announcements uid, Announces uid (rs uid).uuid m
  alive : ∀ a ∈ w.accountsAlive, (rs a.uid).uuid = some a.uuid
  apart : ∀ uid uid' x, (rs uid).uuid = some x → (rs uid').uuid = some x → uid = uid'

/-- One user and its register, with a uuid that it had before or that no other has. -/
theorem Simulates.put (h : Simulates w rs) {u : User K × List Accounts.Msg} {r : Register K}
    (hr : Refines uid u.1 r) (hout : ∀ m ∈ u.2, Announces uid r.uuid m)
    (hkeep : ∀ x, (rs uid).uuid = some x → r.uuid = some x) (hapart : ∀ uid' x, uid' ≠ uid →
      r.uuid = some x → (rs uid').uuid ≠ some x) :
    Simulates (w.put uid u) (Function.update rs uid r) := by
  have hsame : ∀ {uid' x}, (rs uid').uuid = some x →
    (Function.update rs uid r uid').uuid = some x := by
    intro uid' x hx
    by_cases huid : uid' = uid
    · subst huid
      rw [Function.update_self]
      exact hkeep x hx
    · rw [Function.update_of_ne huid, hx]
  refine ⟨fun uid' => ?_, fun uid' m hm => ?_, fun a ha => hsame (h.alive a ha),
    fun uid₁ uid₂ x h₁ h₂ => ?_⟩
  · unfold World.put
    dsimp only
    by_cases huid : uid' = uid
    · subst huid
      rw [Function.update_self, Function.update_self]
      exact hr
    · rw [Function.update_of_ne huid, Function.update_of_ne huid]
      exact h.user uid'
  · unfold World.put at hm
    dsimp only at hm
    by_cases huid : uid' = uid
    · subst huid
      rw [Function.update_self] at hm
      rcases List.mem_append.mp hm with hm | hm
      · obtain ⟨a, hmsg, ha, huuid⟩ := h.announcements uid' m hm
        exact ⟨a, hmsg, ha, hsame huuid⟩
      · obtain ⟨a, hmsg, ha, huuid⟩ := hout m hm
        exact ⟨a, hmsg, ha, by rw [Function.update_self]; exact huuid⟩
    · rw [Function.update_of_ne huid] at hm
      obtain ⟨a, hmsg, ha, huuid⟩ := h.announcements uid' m hm
      exact ⟨a, hmsg, ha, hsame huuid⟩
  · by_cases hu₁ : uid₁ = uid
    · by_cases hu₂ : uid₂ = uid
      · rw [hu₁, hu₂]
      · rw [hu₁, Function.update_self] at h₁
        rw [Function.update_of_ne hu₂] at h₂
        exact absurd h₂ (hapart uid₂ x hu₂ h₁)
    · by_cases hu₂ : uid₂ = uid
      · rw [hu₂, Function.update_self] at h₂
        rw [Function.update_of_ne hu₁] at h₁
        exact absurd h₁ (hapart uid₁ x hu₁ h₂)
      · rw [Function.update_of_ne hu₁] at h₁
        rw [Function.update_of_ne hu₂] at h₂
        exact h.apart uid₁ uid₂ x h₁ h₂

/-- The uuid stays as it is. -/
theorem Simulates.put_same (h : Simulates w rs) {u : User K × List Accounts.Msg} {r : Register K}
    (hr : Refines uid u.1 r) (hout : ∀ m ∈ u.2, Announces uid r.uuid m)
    (hsame : r.uuid = (rs uid).uuid) :
    Simulates (w.put uid u) (Function.update rs uid r) := by
  refine h.put hr hout (fun x hx => hsame.trans hx) fun uid' x hne hx hx' => ?_
  rw [hsame] at hx
  exact hne (h.apart uid' uid x hx' hx)

/-- A uuid that is in use is found in a database. -/
theorem Simulates.ne_fresh (h : Simulates w rs) {uuid : UUID}
    (hnew : ∀ uid, (w.users uid).accounts.find uuid = none) (uid : ℤ) :
    (rs uid).uuid ≠ some uuid := by
  intro hx
  have hrecord := (h.user uid).record
  rw [hx] at hrecord
  exact find_of_recorded (by rw [hrecord]; exact List.mem_singleton_self uuid) (hnew uid)

theorem Simulates.known (h : Simulates w rs) {m : Accounts.Msg}
    (hm : Announces uid (rs uid).uuid m) :
    ∀ a ∈ Accounts.step w.accountsAlive m, (rs a.uid).uuid = some a.uuid := by
  intro a ha
  obtain ⟨b, rfl | rfl, hb, huuid⟩ := hm
  · rcases List.mem_cons.mp ha with rfl | ha
    · rw [hb, huuid]
    · exact h.alive a ha
  · exact h.alive a (List.mem_filter.mp ha).1

theorem simulates_step (key : K) {e : Event K} (h : Simulates w rs) (henv : Env w e) :
    Simulates (step key w e) (turn key rs e) := by
  cases e with
  | boot uid headless account keys early =>
    have hmanager := (h.user uid).manager
    unfold step turn
    dsimp only
    rcases hm : (w.users uid).manager with _ | m
    · rw [hm, Option.map_none] at hmanager
      rw [← hmanager]
      obtain ⟨hrefines, a, huid, huuid, hout⟩ :=
        (h.user uid).boot (henv uid) key headless keys early
      refine h.put hrefines (fun m hm => ?_) (fun x hx => ?_) fun uid' x hne hx hx' => ?_
      · rw [hout] at hm
        split_ifs at hm
        · exact ⟨a, .inl (List.mem_singleton.mp hm), huid, congrArg some huuid.symm⟩
        · cases hm
      · show some ((rs uid).uuid.getD account.uuid) = some x
        rw [hx, Option.getD_some]
      · have hx : some ((rs uid).uuid.getD account.uuid) = some x := hx
        rcases hold : (rs uid).uuid with _ | y
        · rw [hold, Option.getD_none] at hx
          rw [← hx] at hx'
          exact h.ne_fresh henv uid' hx'
        · rw [hold, Option.getD_some] at hx
          exact hne (h.apart uid' uid x hx' (hold.trans hx))
    · rw [hm, Option.map_some] at hmanager
      rw [← hmanager]
      exact h
  | send uid m =>
    have huser := h.user uid
    refine h.put_same ⟨huser.wf, huser.record, huser.keys, ?_, fun m' hm' => ?_⟩ (by simp) rfl
    · rw [← huser.manager]
      show Option.map _ (Option.map _ (w.users uid).manager) = _
      rcases (w.users uid).manager with _ | r <;> rfl
    · obtain ⟨r, hr, rfl⟩ := Option.map_eq_some_iff.mp hm'
      exact huser.account r hr
  | receive uid new =>
    obtain ⟨hrefines, huuid, hout⟩ := (h.user uid).receive new
    refine h.put_same hrefines (fun m hm => ?_) huuid
    rcases hout with ⟨hnil, -⟩ | ⟨a, ha, hsome, hdead, -⟩
    · rw [hnil] at hm
      cases hm
    · rw [hdead] at hm
      exact ⟨a, .inr (List.mem_singleton.mp hm), ha, huuid.trans hsome⟩
  | stop uid =>
    have huser := h.user uid
    exact h.put_same ⟨huser.wf, huser.record, huser.keys, rfl, by rintro m' ⟨⟩⟩ (by simp) rfl
  | arrive uid =>
    unfold step turn
    dsimp only
    rcases hm : w.announcements uid with _ | ⟨m, rest⟩
    · exact h
    · have hsent : ∀ x ∈ m :: rest, Announces uid (rs uid).uuid x := by
        rw [← hm]
        exact h.announcements uid
      refine ⟨h.user, fun uid' x hx => ?_, h.known (hsent m List.mem_cons_self), h.apart⟩
      dsimp only at hx
      by_cases huid : uid' = uid
      · subst huid
        rw [Function.update_self] at hx
        exact hsent x (List.mem_cons_of_mem m hx)
      · rw [Function.update_of_ne huid] at hx
        exact h.announcements uid' x hx
  | lose uid =>
    refine ⟨h.user, fun uid' x hx => h.announcements uid' x ?_, h.alive, h.apart⟩
    unfold step at hx
    dsimp only at hx
    by_cases huid : uid' = uid
    · subst huid
      rw [Function.update_self] at hx
      exact List.mem_of_mem_tail hx
    · rw [Function.update_of_ne huid] at hx
      exact hx

theorem simulates_start : Simulates (start : World K) blank := by
  refine ⟨fun uid => ⟨wf_init, rfl, ⟨[], ⟨wf_init, .inl ⟨rfl, rfl⟩⟩, rfl⟩, rfl, ?_⟩, ?_, ?_, ?_⟩
  · rintro m ⟨⟩
  · rintro uid m ⟨⟩
  · rintro a ⟨⟩
  · rintro uid uid' x ⟨⟩

/-- **Every run of the managers with their databases is one of the registers.** A user has one
record for its uid, with the uuid of its first boot, which is the one of its manager's account and
of no other user; the messages that wait for its manager are the same, and a key is authorized if
and only if it is the one in the register. -/
theorem boots_register {key : K} {evs : List (Event K)} (h : Meets (step key) Env start evs)
    (uid : ℤ) :
    recorded ((run (step key) start evs).users uid).accounts uid =
      (run (turn key) blank evs uid).uuid.toList ∧
      (∀ m, ((run (step key) start evs).users uid).manager = some m →
        m.account.uid = uid ∧ (run (turn key) blank evs uid).uuid = some m.account.uuid) ∧
      (∀ uid' x, (run (turn key) blank evs uid).uuid = some x →
        (run (turn key) blank evs uid').uuid = some x →
        uid = uid') ∧
      ((run (step key) start evs).users uid).manager.map (fun m => (m.headless, m.mailbox)) =
        (run (turn key) blank evs uid).manager ∧
      ∀ new k, accountReceive ((run (step key) start evs).users uid).keys new
        (.authorizeWithKey k) =
        (((run (step key) start evs).users uid).keys,
          [.authorized ((run (turn key) blank evs uid).holds k)]) := by
  have hstep : ∀ (w : World K) rs e, Simulates w rs → Env w e →
    Simulates (step key w e) (turn key rs e) :=
    fun w rs e hw henv => simulates_step key hw henv
  have hsim : Simulates (run (step key) start evs) (run (turn key) blank evs) :=
    h.simulates hstep simulates_start
  have huser := hsim.user uid
  refine ⟨huser.record, huser.account, fun uid' x => hsim.apart uid uid' x, huser.manager,
    fun new k => ?_⟩
  unfold accountReceive
  dsimp only
  rw [huser.holds new k]

end Simulation

/-! ### The accounts that are alive -/

section Counting

/-- How many entries there are after the announcements of one user, if there were `n`. -/
def settle (n : ℕ) (announcements : List Accounts.Msg) : ℕ :=
  run (fun n m => match m with
    | .alive _ => n + 1
    | .dead _ => 0
    | _ => n) n announcements

/-- The entries for a uid. -/
def entriesFor (uid : ℤ) (accounts : List SvdAccount) : ℕ := accounts.countP fun a => a.uid == uid

variable {K : Type} {w : World K} {rs : ℤ → Register K} {uid : ℤ}

/-- What is known with what is on its way. -/
def Counted (w : World K) (rs : ℤ → Register K) : Prop :=
  ∀ uid, settle (entriesFor uid w.accountsAlive) (w.announcements uid) = (rs uid).announced

theorem Counted.put (h : Counted w rs) {u : User K × List Accounts.Msg} {r : Register K}
    (hr : settle (rs uid).announced u.2 = r.announced) :
    Counted (w.put uid u) (Function.update rs uid r) := by
  intro uid'
  unfold World.put
  dsimp only
  by_cases huid : uid' = uid
  · subst huid
    rw [Function.update_self, Function.update_self, ← hr, ← h uid']
    exact run_append _ _ _
  · rw [Function.update_of_ne huid, Function.update_of_ne huid]
    exact h uid'

variable [DecidableEq K] [HashCode K]

/-- An announcement adds one entry of its user or removes all of them, and no other ones. -/
theorem Simulates.entriesFor_step (h : Simulates w rs) {m : Accounts.Msg}
    (hm : Announces uid (rs uid).uuid m) (uid' : ℤ) :
    entriesFor uid' (Accounts.step w.accountsAlive m) =
      if uid' = uid then settle (entriesFor uid' w.accountsAlive) [m]
        else entriesFor uid' w.accountsAlive := by
  obtain ⟨a, rfl | rfl, ha, huuid⟩ := hm
  · show (a :: w.accountsAlive).countP _ = _
    rw [List.countP_cons]
    by_cases huid : uid' = uid
    · rw [if_pos huid, if_pos (by rw [ha, huid]; exact beq_self_eq_true uid)]
      rfl
    · rw [if_neg huid, if_neg (by rw [ha, beq_iff_eq]; exact fun he => huid he.symm)]
      rfl
  · -- whose entries these are is in their uuids
    have hsame : ∀ b ∈ w.accountsAlive, (b.uuid = a.uuid ↔ b.uid = uid) := fun b hb =>
      ⟨fun hb' => h.apart b.uid uid a.uuid (hb' ▸ h.alive b hb) huuid, fun hb' => by
        have hknown := h.alive b hb
        rw [hb', huuid] at hknown
        exact (Option.some.inj hknown).symm⟩
    show (w.accountsAlive.filter _).countP _ = _
    rw [List.countP_filter]
    by_cases huid : uid' = uid
    · rw [if_pos huid]
      refine List.countP_eq_zero.mpr fun b hb hboth => ?_
      obtain ⟨hb', hne⟩ := Bool.and_eq_true_iff.mp hboth
      rw [beq_iff_eq, huid] at hb'
      rw [Bool.not_eq_true', beq_eq_false_iff_ne] at hne
      exact hne ((hsame b hb).mpr hb')
    · rw [if_neg huid]
      refine List.countP_congr fun b hb => ?_
      rw [Bool.and_eq_true_iff, Bool.not_eq_true', beq_eq_false_iff_ne]
      refine ⟨And.left, fun hb' => ⟨hb', fun he => huid ?_⟩⟩
      rw [← (hsame b hb).mp he]
      exact (beq_iff_eq.mp hb').symm

theorem counted_step (key : K) {e : Event K} (h : Simulates w rs) (hcount : Counted w rs)
    (henv : Env w e) (hlose : e.isLose = false) : Counted (step key w e) (turn key rs e) := by
  cases e with
  | boot uid headless account keys early =>
    have hmanager := (h.user uid).manager
    unfold step turn
    dsimp only
    rcases hm : (w.users uid).manager with _ | m
    · rw [hm, Option.map_none] at hmanager
      rw [← hmanager]
      obtain ⟨-, a, -, -, hout⟩ := (h.user uid).boot (henv uid) key headless keys early
      refine hcount.put ?_
      rw [hout]
      rcases headless with _ | _ <;> rfl
    · rw [hm, Option.map_some] at hmanager
      rw [← hmanager]
      exact hcount
  | send uid m => exact hcount.put rfl
  | receive uid new =>
    obtain ⟨-, -, hout⟩ := (h.user uid).receive new
    refine hcount.put ?_
    rcases hout with ⟨hnil, hsame⟩ | ⟨a, -, -, hdead, hzero⟩
    · rw [hnil, hsame]
      rfl
    · rw [hdead, hzero]
      rfl
  | stop uid => exact hcount.put rfl
  | arrive uid =>
    unfold step turn
    dsimp only
    rcases hm : w.announcements uid with _ | ⟨m, rest⟩
    · exact hcount
    · intro uid'
      have hsent : Announces uid (rs uid).uuid m :=
        h.announcements uid m (by rw [hm]; exact List.mem_cons_self)
      rw [← hcount uid']
      dsimp only
      rw [h.entriesFor_step hsent]
      by_cases huid : uid' = uid
      · subst huid
        rw [if_pos rfl, Function.update_self, hm]
        rfl
      · rw [if_neg huid, Function.update_of_ne huid]
  | lose uid => exact absurd hlose Bool.noConfusion

/-- **What the accounts manager knows is exact** when all announcements of a user are there: it has
an entry for every boot of the user that was not headless, since the last shutdown of such a
manager, so a user that was stopped without one stays there. -/
theorem alive_exact {key : K} {evs : List (Event K)} (h : Meets (step key) Env start evs)
    (hlose : ∀ e ∈ evs, e.isLose = false) {uid : ℤ}
    (hthere : (run (step key) start evs).announcements uid = []) :
    entriesFor uid (run (step key) start evs).accountsAlive =
      (run (turn key) blank evs uid).announced := by
  have hstep : ∀ (w : World K) rs e, Simulates w rs ∧ Counted w rs → Env w e ∧ e.isLose = false →
      Simulates (step key w e) (turn key rs e) ∧ Counted (step key w e) (turn key rs e) :=
    fun w rs e hw he => ⟨simulates_step key hw.1 he.1, counted_step key hw.1 hw.2 he.1 he.2⟩
  have hboth := (h.and_forall hlose).simulates hstep ⟨simulates_start, fun _ => rfl⟩
  have hcount := hboth.2 uid
  rw [hthere] at hcount
  exact hcount

end Counting

/-! ### A process that is killed -/

section Killed

def defaultKey : X509Key := ⟨[1]⟩

/-- 501 boots, its process is over without a shutdown, and it boots again. -/
def killed : List (Event X509Key) :=
  [.boot 501 false ⟨⟨0, 1⟩, 10⟩ ⟨⟨0, 2⟩, 10⟩ [], .receive 501 ⟨⟨0, 3⟩, 20⟩, .stop 501,
    .boot 501 false ⟨⟨0, 4⟩, 30⟩ ⟨⟨0, 5⟩, 30⟩ [], .arrive 501, .arrive 501]

theorem meets_killed : Meets (step defaultKey) Env start killed := by
  refine ⟨fun _ => rfl, trivial, trivial, fun uid => ?_, trivial, trivial, trivial⟩
  by_cases huid : uid = 501
  · subst huid
    rfl
  · show DBClient.find
      (Function.update (Function.update (Function.update start.users 501 _) 501 _)
        501 _ uid).accounts _ = none
    rw [Function.update_of_ne huid, Function.update_of_ne huid, Function.update_of_ne huid]
    rfl

/-- The uuid and the key are those of the first boot. -/
theorem boots_register_killed :
    recorded ((run (step defaultKey) start killed).users 501).accounts 501 = [⟨0, 1⟩] ∧
      accountReceive ((run (step defaultKey) start killed).users 501).keys ⟨⟨0, 6⟩, 40⟩
        (.authorizeWithKey defaultKey) =
        (((run (step defaultKey) start killed).users 501).keys, [.authorized true]) := by
  obtain ⟨hrecord, -, -, -, hkey⟩ := boots_register meets_killed 501
  exact ⟨hrecord, hkey _ _⟩

/-- It is known twice. -/
theorem alive_exact_killed :
    entriesFor 501 (run (step defaultKey) start killed).accountsAlive =
      (run (turn defaultKey) blank killed 501).announced :=
  alive_exact meets_killed (by decide) rfl

example : (run (turn defaultKey) blank killed 501).announced = 2 := rfl

end Killed

end ServeD.Managers.Boots
