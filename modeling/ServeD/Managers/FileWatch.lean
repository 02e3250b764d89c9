import ServeD.Db.Invariant
import ServeD.Utils.Path
import ServeD.Utils.Registry

/-! # File watches of an account

`SvdAccountManager` and its child `SvdFileEventsManager` as two actors with mailboxes. The manager
stores a binding for each watch (`CreateFileWatch`) and asks itself to register the path; that
request waits in its own mailbox until it is forwarded. `DestroyFileWatch` asks the bound service
for its status, removes the binding when the answer, or its absence, is in, and sends the child
`SvdUnregisterFileEvent`, which concerns every path of the manager and overtakes the requests that
still wait.

What the messages on their way will leave registered (`effect`) is, path by path, what is bound and
not about to be removed (`WatchInv.agree`). Every step keeps this, `DestroyFileWatch` exactly under
the condition `Careful`, so after any run of careful steps bindings and registrations agree once the
messages are delivered (`watchLaw_after`). -/

namespace ServeD.Managers.FileWatch

open ServeD.Lib.ObjectStore ServeD.Lib.Runs ServeD.Api.Records ServeD.Db.Client ServeD.Db.Invariant
open ServeD.Utils.Path ServeD.Utils.FileEvents ServeD.Utils.Registry

/-! ### The two actors -/

/-- The mailbox of the account manager. -/
inductive Mail (A : Type) where
  | createFileWatch (fileName : String) (flags : Flags) (serviceName : String)
  | destroyFileWatch (fileName : String)
  /-- a message of `Events.Base`, to be forwarded -/
  | events (m : Msg A)
  | fileEvent (path : String) (flags : Flags)
  | apiSuccess
  deriving DecidableEq, Repr

/-- What the sender of a message is told. -/
inductive Reply where
  | apiSuccess (message : String)
  | apiError (message : String)
  deriving DecidableEq, Repr

/-- The account manager, its database and its file events manager. -/
structure World (A : Type) where
  db : DBClient SvdFileEventBinding
  mailbox : List (Mail A)
  /-- the bindings whose service has been asked for its status and has not answered -/
  asked : List SvdFileEventBinding
  femMailbox : List (Msg A)
  fem : FEM A

variable {A : Type} [DecidableEq A]

namespace World

omit [DecidableEq A]

def init : World A := ⟨DBClient.init, [], [], [], FEM.init⟩

/-- `SvdFileEventBindings(db)`. -/
def bindings (w : World A) : List SvdFileEventBinding :=
  (classQueryCollection w.db.currentODB).map (·.value)

/-- `SvdFileEventBindings(db).find{_.absoluteFilePath == path}`. -/
def bindingOn (w : World A) (path : String) : Option SvdFileEventBinding :=
  w.bindings.find? fun b => b.absoluteFilePath == path

/-- `registerFileEventFor(path, flags)`: whether the file exists or its directory is made first, the
manager sends itself the request. -/
def registerFileEventFor (self : A) (w : World A) (path : String) (flags : Flags) : World A :=
  { w with mailbox := w.mailbox ++ [.events (.registerFileEvent path flags self)] }

def createFileWatch (userHomeDir : String) (self : A) (w : World A) (new : Fresh)
    (fileName : String) (flags : Flags) (serviceName : String) : World A × List Reply :=
  let path := join userHomeDir fileName
  match w.bindingOn path with
  | some _ => (w, [.apiError ("File Event already registerd for " ++ path)])
  | none =>
    let w' := w.registerFileEventFor self path flags
    ({ w' with db := w'.db.saveNew ⟨path, serviceName, flags, new.uuid, new.now⟩ },
      [.apiSuccess ("File Event watch registered successfully for " ++ path)])

def destroyFileWatch (userHomeDir : String) (self : A) (w : World A) (fileName : String) :
    World A × List Reply :=
  let path := join userHomeDir fileName
  let w' := match w.bindingOn path with
    | some binding => { w with asked := w.asked ++ [binding] }
    | none => w
  ({ w' with femMailbox := w'.femMailbox ++ [.unregisterFileEvent self] },
    [.apiSuccess ("File Event destroyed successfully for " ++ path)])

/-- `SvdAccountManager.started`, the messages about file watches. A file event asks services for a
pong, which changes nothing here. -/
def receive (userHomeDir : String) (self : A) (w : World A) (new : Fresh) :
    Mail A → World A × List Reply
  | .createFileWatch fileName flags serviceName =>
    w.createFileWatch userHomeDir self new fileName flags serviceName
  | .destroyFileWatch fileName => w.destroyFileWatch userHomeDir self fileName
  | .events m => ({ w with femMailbox := w.femMailbox ++ [m] }, [])
  | .fileEvent _ _ => (w, [])
  | .apiSuccess => (w, [])

end World

/-- What the file events manager sends to the account manager while it handles `m`: the reply to a
message of the kernel's reader goes to itself. -/
def told (self : A) (m : Msg A) (sent : List (Sent A)) : List (Mail A) :=
  sent.filterMap fun
    | .fileEvent ref path flags => if ref = self then some (.fileEvent path flags) else none
    | .apiSuccess =>
      match m with
      | .kqueueFileEvent _ _ => none
      | _ => some .apiSuccess

/-- What happens, in any order. -/
inductive Ev where
  /-- `User.CreateFileWatch` arrives -/
  | create (fileName : String) (flags : Flags) (serviceName : String)
  /-- `User.DestroyFileWatch` arrives -/
  | destroy (fileName : String)
  /-- the kernel reports an event -/
  | kqueue (ident : ℤ) (flags : Flags)
  /-- the account manager handles its next message -/
  | manager (new : Fresh)
  /-- the file events manager handles its next message -/
  | fem (c : Sys)
  /-- a service has answered, or the time for it is over: `db ~ binding` -/
  | answer (k : ℕ)
  deriving DecidableEq, Repr

section Watches

variable [Neodatis SvdFileEventBinding]

def step (userHomeDir : String) (self : A) (w : World A) : Ev → World A
  | .create fileName flags serviceName =>
    { w with mailbox := w.mailbox ++ [.createFileWatch fileName flags serviceName] }
  | .destroy fileName => { w with mailbox := w.mailbox ++ [.destroyFileWatch fileName] }
  | .kqueue ident flags => { w with femMailbox := w.femMailbox ++ [.kqueueFileEvent ident flags] }
  | .manager new =>
    match w.mailbox with
    | [] => w
    | m :: rest => (World.receive userHomeDir self { w with mailbox := rest } new m).1
  | .fem c =>
    match w.femMailbox with
    | [] => w
    | m :: rest =>
      { w with
        femMailbox := rest
        fem := w.fem.step (m, c)
        mailbox := w.mailbox ++ told self m (w.fem.receive c m).sent }
  | .answer k =>
    match w.asked[k]? with
    | some binding => { w with db := w.db.remove binding.uuid, asked := w.asked.eraseIdx k }
    | none => w

/-! ### Messages on their way -/

section Flow

omit [Neodatis SvdFileEventBinding]

omit [DecidableEq A] in
/-- The message for the file events manager that an item of the mailbox is, if it is one. -/
def toFem : Mail A → Option (Msg A)
  | .events m => some m
  | _ => none

omit [DecidableEq A] in
def asksFor (p : String) : Msg A → Bool
  | .registerFileEvent q _ _ => q == p
  | _ => false

omit [DecidableEq A] in
/-- The messages for the file events manager that wait in the account manager's mailbox. -/
def forwarded (w : World A) : List (Msg A) := w.mailbox.filterMap toFem

omit [DecidableEq A] in
/-- A request to register the path waits in the account manager's mailbox. -/
def waiting (w : World A) (p : String) : Bool := (forwarded w).any (asksFor p)

/-- The registrations on a path when all messages on their way will have been handled. -/
def effect (w : World A) (p : String) : ActorRefList A :=
  (w.femMailbox ++ forwarded w).foldl (regsStep p) (regs w.fem p)

omit [DecidableEq A] in
/-- The path has a binding that is not about to be removed. -/
def Bound (w : World A) (p : String) : Prop :=
  ∃ b ∈ w.bindings, b.absoluteFilePath = p ∧ ∀ a ∈ w.asked, a.uuid ≠ b.uuid

omit [DecidableEq A] in
/-- The file events manager holds a registration of the account manager on the path. -/
def Registered (self : A) (w : World A) (p : String) : Prop :=
  ∃ i l, w.fem.idents.lookup i = some (p, l) ∧ ∃ x ∈ l, x.2 = self

omit [DecidableEq A] in
/-- No message is on its way between the two. -/
def Settled (w : World A) : Prop := w.femMailbox = [] ∧ forwarded w = []

instance (w : World A) : Decidable (Settled w) := inferInstanceAs (Decidable (_ ∧ _))

theorem toFem_told (self : A) (m : Msg A) (sent : List (Sent A)) :
    (told self m sent).filterMap toFem = [] := by
  rw [List.filterMap_eq_nil_iff]
  intro x hx
  obtain ⟨y, -, hy⟩ := List.mem_filterMap.mp hx
  cases y with
  | fileEvent ref path flags =>
    simp only at hy
    split_ifs at hy
    obtain rfl := Option.some.inj hy
    rfl
  | apiSuccess =>
    cases m <;> simp at hy <;> subst hy <;> rfl

/-- Requests only add registrations. -/
theorem foldl_requests {self : A} (p : String) : ∀ (ms : List (Msg A)) (l : ActorRefList A),
    (∀ m ∈ ms, ∃ q f, m = .registerFileEvent q f self) →
    (ms.foldl (regsStep p) l ≠ [] ↔ l ≠ [] ∨ ms.any (asksFor p) = true)
  | [], l, _ => by simp
  | m :: ms, l, h => by
    obtain ⟨q, f, rfl⟩ := h m List.mem_cons_self
    rw [List.foldl_cons, foldl_requests p ms _ fun m hm => h m (List.mem_cons_of_mem _ hm)]
    by_cases hq : q = p
    · simp [regsStep, asksFor, hq]
    · simp [regsStep, asksFor, hq]

end Flow

/-! ### The invariant -/

/-- Between steps: bindings have distinct paths, requests and registrations are the account
manager's own, and what will be registered is what is bound. -/
structure WatchInv (me : A) (w : World A) : Prop where
  db : WF w.db
  fem : Inv w.fem
  onePath : (w.bindings.map (·.absoluteFilePath)).Nodup
  own : ∀ p, ∀ x ∈ w.femMailbox.foldl (regsStep p) (regs w.fem p), x.2 = me
  requests : ∀ m ∈ forwarded w, ∃ p f, m = .registerFileEvent p f me
  agree : ∀ p, effect w p ≠ [] ↔ Bound w p

section Inv

variable {self : A} {w : World A}

omit [Neodatis SvdFileEventBinding] in
theorem watchInv_init (self : A) : WatchInv self (World.init : World A) where
  db := wf_init
  fem := inv_init
  onePath := List.nodup_nil
  own := fun _ _ hx => absurd hx List.not_mem_nil
  requests := fun _ hm => absurd hm List.not_mem_nil
  agree := fun p => by
    refine ⟨fun h => absurd rfl h, ?_⟩
    rintro ⟨b, hb, -⟩
    exact absurd hb List.not_mem_nil

omit [Neodatis SvdFileEventBinding] in
/-- A step that changes neither the bindings nor what is on its way. -/
theorem WatchInv.of_same {w' : World A} (h : WatchInv self w) (hdb : w'.db = w.db)
    (hasked : w'.asked = w.asked) (hfem : w'.fem = w.fem) (hbox : w'.femMailbox = w.femMailbox)
    (hfw : forwarded w' = forwarded w) : WatchInv self w' := by
  have hbind : w'.bindings = w.bindings := by unfold World.bindings; rw [hdb]
  refine ⟨hdb ▸ h.db, hfem ▸ h.fem, hbind ▸ h.onePath, ?_, hfw ▸ h.requests, fun p => ?_⟩
  · rw [hbox, hfem]; exact h.own
  · have ha := h.agree p
    unfold effect Bound at ha ⊢
    rw [hbox, hfem, hfw, hbind, hasked]; exact ha

omit [Neodatis SvdFileEventBinding] in
theorem effect_congr {w' : World A} {p : String}
    (hfold : w'.femMailbox.foldl (regsStep p) (regs w'.fem p) =
      w.femMailbox.foldl (regsStep p) (regs w.fem p))
    (hfw : forwarded w' = forwarded w) : effect w' p = effect w p := by
  unfold effect
  rw [hfw, List.foldl_append, List.foldl_append, hfold]

omit [Neodatis SvdFileEventBinding] in
/-- The effect of the requests that wait, on top of the rest. -/
theorem WatchInv.effect_ne_nil (h : WatchInv self w) (p : String) :
    effect w p ≠ [] ↔ w.femMailbox.foldl (regsStep p) (regs w.fem p) ≠ [] ∨ waiting w p = true := by
  unfold effect waiting
  rw [List.foldl_append, foldl_requests p _ _ h.requests]

omit [DecidableEq A] [Neodatis SvdFileEventBinding] in
theorem bindingOn_none {p : String} :
    w.bindingOn p = none ↔ ∀ b ∈ w.bindings, b.absoluteFilePath ≠ p := by
  simp [World.bindingOn, List.find?_eq_none]

omit [DecidableEq A] [Neodatis SvdFileEventBinding] in
theorem bindingOn_some {p : String} {b : SvdFileEventBinding} (h : w.bindingOn p = some b) :
    b ∈ w.bindings ∧ b.absoluteFilePath = p :=
  ⟨List.mem_of_find?_eq_some h, by simpa using List.find?_some h⟩

omit [DecidableEq A] [Neodatis SvdFileEventBinding] in
theorem bindings_saveNew (hw : WF w.db) {b : SvdFileEventBinding}
    (hb : ∀ a ∈ w.bindings, a.uuid ≠ b.uuid) :
    (w.db.saveNew b).currentODB.objects.map (·.value) = w.bindings ++ [b] := by
  have hf : w.db.find (Persistent.uuid b) = none := by
    rw [find_eq_none, List.eq_nil_iff_forall_not_mem]
    intro o ho
    obtain ⟨hm, hu⟩ := mem_findByUUID.mp ho
    exact hb o.value (List.mem_map_of_mem hm) hu
  rw [objects_saveNew_none hw hf, List.map_append]
  rfl

omit [DecidableEq A] in
theorem bindings_remove (hw : WF w.db) (u : UUID) :
    (w.db.remove u).currentODB.objects.map (·.value) = w.bindings.filter fun b => b.uuid ≠ u := by
  rw [objects_remove hw, World.bindings, classQueryCollection, List.filter_map]
  rfl

omit [DecidableEq A] [Neodatis SvdFileEventBinding] in
/-- Bindings with the same path are the same. -/
theorem eq_of_path {w : World A} (h : (w.bindings.map (·.absoluteFilePath)).Nodup)
    {a b : SvdFileEventBinding} (ha : a ∈ w.bindings) (hb : b ∈ w.bindings)
    (hab : a.absoluteFilePath = b.absoluteFilePath) : a = b :=
  List.inj_on_of_nodup_map h ha hb hab

omit [Neodatis SvdFileEventBinding] in
/-- A new watch: a request is on its way and the path is bound. -/
theorem WatchInv.create (h : WatchInv self w) {b : SvdFileEventBinding}
    (hb : ∀ a ∈ w.bindings ++ w.asked, a.uuid ≠ b.uuid)
    (hno : w.bindingOn b.absoluteFilePath = none) :
    WatchInv self { w.registerFileEventFor self b.absoluteFilePath b.flags with
      db := w.db.saveNew b } := by
  have hbind : ∀ w' : World A, w'.db = w.db.saveNew b → w'.bindings = w.bindings ++ [b] := by
    intro w' hw'
    rw [World.bindings, hw']
    exact bindings_saveNew h.db fun a ha => hb a (List.mem_append_left _ ha)
  have hpath := bindingOn_none.mp hno
  set w' : World A := { w.registerFileEventFor self b.absoluteFilePath b.flags with
    db := w.db.saveNew b } with hw'
  have hb' := hbind w' rfl
  have hfw : forwarded w' =
      forwarded w ++ [.registerFileEvent b.absoluteFilePath b.flags self] := by
    rw [hw']
    simp [forwarded, World.registerFileEventFor, toFem]
  have hreq : ∀ m ∈ forwarded w', ∃ p f, m = .registerFileEvent p f self := by
    intro m hm
    rw [hfw, List.mem_append, List.mem_singleton] at hm
    rcases hm with hm | rfl
    · exact h.requests m hm
    · exact ⟨_, _, rfl⟩
  refine ⟨wf_saveNew h.db b, h.fem, ?_, h.own, hreq, fun p => ?_⟩
  · rw [hb', List.map_append, List.nodup_append]
    refine ⟨h.onePath, List.nodup_singleton _, fun q hq q' hq' => ?_⟩
    obtain ⟨a, ha, rfl⟩ := List.mem_map.mp hq
    rw [List.mem_singleton.mp hq']
    exact hpath a ha
  · have heff : effect w' p = regsStep p (effect w p)
        (.registerFileEvent b.absoluteFilePath b.flags self) := by
      unfold effect
      rw [hfw, ← List.append_assoc, List.foldl_append]
      rfl
    have ha := h.agree p
    unfold Bound at ha ⊢
    rw [heff, hb', regsStep]
    by_cases hp : b.absoluteFilePath = p
    · rw [if_pos hp]
      refine ⟨fun _ => ⟨b, by simp, hp, fun a ha => hb a (List.mem_append_right _ ha)⟩, ?_⟩
      exact fun _ => List.append_ne_nil_of_right_ne_nil _ (List.cons_ne_nil _ _)
    · rw [if_neg hp, ha]
      constructor
      · rintro ⟨a, ham, hap⟩
        exact ⟨a, List.mem_append_left _ ham, hap⟩
      · rintro ⟨a, ham, hap, hask⟩
        rcases List.mem_append.mp ham with ham | ham
        · exact ⟨a, ham, hap, hask⟩
        · rw [List.mem_singleton.mp ham] at hap
          exact absurd hap hp

omit [DecidableEq A] [Neodatis SvdFileEventBinding] in
/-- Bindings with the same uuid are the same. -/
theorem eq_of_uuid (hw : WF w.db) {a b : SvdFileEventBinding} (ha : a ∈ w.bindings)
    (hb : b ∈ w.bindings) (hab : a.uuid = b.uuid) : a = b := by
  obtain ⟨o, ho, rfl⟩ := List.mem_map.mp ha
  obtain ⟨o', ho', rfl⟩ := List.mem_map.mp hb
  rcases h : w.db.find o'.value.uuid with _ | x
  · exact absurd ho' (not_mem_of_find_none h rfl)
  · rw [eq_of_find hw h ho hab, eq_of_find hw h ho' rfl]

omit [DecidableEq A] [Neodatis SvdFileEventBinding] in
theorem destroyFileWatch_eq (home : String) (self : A) (w : World A) (fileName : String) :
    (w.destroyFileWatch home self fileName).1 =
      { w with
        asked := w.asked ++ (w.bindingOn (join home fileName)).toList
        femMailbox := w.femMailbox ++ [.unregisterFileEvent self] } := by
  rcases h : w.bindingOn (join home fileName) with _ | b
  · simp [World.destroyFileWatch, h]
  · simp [World.destroyFileWatch, h]

omit [DecidableEq A] [Neodatis SvdFileEventBinding] in
/-- The binding on the path of the file is about to be removed, the others are as before. -/
theorem bound_destroy (hw : WF w.db) (hpath : (w.bindings.map (·.absoluteFilePath)).Nodup)
    (home : String) (self : A) (fileName p : String) :
    Bound (w.destroyFileWatch home self fileName).1 p ↔ Bound w p ∧ p ≠ join home fileName := by
  rw [destroyFileWatch_eq]
  show (∃ b ∈ w.bindings, b.absoluteFilePath = p ∧
    ∀ a ∈ w.asked ++ (w.bindingOn (join home fileName)).toList, a.uuid ≠ b.uuid) ↔ _
  constructor
  · rintro ⟨b, hm, rfl, hask⟩
    refine ⟨⟨b, hm, rfl, fun a ha => hask a (List.mem_append_left _ ha)⟩, fun hp => ?_⟩
    rcases ho : w.bindingOn (join home fileName) with _ | b0
    · exact bindingOn_none.mp ho b hm hp
    · obtain ⟨hm0, hp0⟩ := bindingOn_some ho
      rw [← eq_of_path hpath hm hm0 (hp.trans hp0.symm)] at ho
      exact hask b (List.mem_append_right _ (by rw [ho]; simp)) rfl
  · rintro ⟨⟨b, hm, rfl, hask⟩, hne⟩
    refine ⟨b, hm, rfl, fun a ha hu => ?_⟩
    rcases List.mem_append.mp ha with ha | ha
    · exact hask a ha hu
    · obtain ⟨hm0, hp0⟩ := bindingOn_some (Option.mem_toList.mp ha)
      rw [eq_of_uuid hw hm0 hm hu] at hp0
      exact hne hp0

omit [Neodatis SvdFileEventBinding] in
/-- The end of a watch: what is registered goes, what waits will be registered. Exactly under the
condition this leaves the other watches. -/
theorem WatchInv.destroy_iff (h : WatchInv self w) (home fileName : String) :
    WatchInv self (w.destroyFileWatch home self fileName).1 ↔
      ∀ b ∈ w.bindings, (∀ a ∈ w.asked, a.uuid ≠ b.uuid) →
        (waiting w b.absoluteFilePath = true ↔ b.absoluteFilePath ≠ join home fileName) := by
  have hbound := bound_destroy h.db h.onePath home self fileName
  rw [destroyFileWatch_eq] at hbound ⊢
  set w' : World A := { w with
    asked := w.asked ++ (w.bindingOn (join home fileName)).toList
    femMailbox := w.femMailbox ++ [.unregisterFileEvent self] } with hw'
  have hnil : ∀ p, w'.femMailbox.foldl (regsStep p) (regs w'.fem p) = [] := by
    intro p
    rw [hw']
    simp only [List.foldl_append, List.foldl_cons, List.foldl_nil, regsStep]
    exact List.filter_eq_nil_iff.mpr fun x hx => by simpa using h.own p x hx
  have hfw : forwarded w' = forwarded w := rfl
  have heff : ∀ p, effect w' p ≠ [] ↔ waiting w p = true := by
    intro p
    unfold effect waiting
    rw [List.foldl_append, hnil p, hfw, foldl_requests p _ _ h.requests]
    simp only [ne_eq, not_true_eq_false, false_or]
  constructor
  · intro h' b hm hask
    have hb : Bound w b.absoluteFilePath := ⟨b, hm, rfl, hask⟩
    rw [← heff, h'.agree, hbound]
    exact and_iff_right hb
  · intro hc
    have hown : ∀ p, ∀ x ∈ w'.femMailbox.foldl (regsStep p) (regs w'.fem p), x.2 = self := by
      intro p x hx
      rw [hnil p] at hx
      exact absurd hx List.not_mem_nil
    refine ⟨h.db, h.fem, h.onePath, hown, h.requests, fun p => ?_⟩
    rw [heff, hbound]
    constructor
    · intro hwait
      obtain ⟨b, hm, rfl, hask⟩ := (h.agree p).mp ((h.effect_ne_nil p).mpr (Or.inr hwait))
      exact ⟨⟨b, hm, rfl, hask⟩, (hc b hm hask).mp hwait⟩
    · rintro ⟨⟨b, hm, rfl, hask⟩, hne⟩
      exact (hc b hm hask).mpr hne

omit [Neodatis SvdFileEventBinding] in
/-- A message is forwarded: it changes its mailbox, not its place in the order. -/
theorem WatchInv.forward (h : WatchInv self w) {m : Msg A} {rest : List (Mail A)}
    (hm : w.mailbox = .events m :: rest) :
    WatchInv self { w with mailbox := rest, femMailbox := w.femMailbox ++ [m] } := by
  set w' : World A := { w with mailbox := rest, femMailbox := w.femMailbox ++ [m] } with hw'
  have hfw : forwarded w = m :: forwarded w' := by
    unfold forwarded
    rw [hm]
    rfl
  have hreq : ∀ m' ∈ forwarded w', ∃ p f, m' = .registerFileEvent p f self :=
    fun m' hm' => h.requests m' (by rw [hfw]; exact List.mem_cons_of_mem _ hm')
  refine ⟨h.db, h.fem, h.onePath, fun p x hx => ?_, hreq, fun p => ?_⟩
  · obtain ⟨q, f, rfl⟩ := h.requests m (by rw [hfw]; exact List.mem_cons_self)
    rw [hw'] at hx
    simp only [List.foldl_append, List.foldl_cons, List.foldl_nil, regsStep] at hx
    split_ifs at hx with hq
    · rcases List.mem_append.mp hx with hx | hx
      · exact h.own p x hx
      · rw [List.mem_singleton.mp hx]
    · exact h.own p x hx
  · have heff : effect w' p = effect w p := by
      unfold effect
      rw [hfw, List.append_cons]
    have ha := h.agree p
    rw [heff]; exact ha

omit [Neodatis SvdFileEventBinding] in
/-- The kernel reports an event. -/
theorem WatchInv.report (h : WatchInv self w) (ident : ℤ) (flags : Flags) :
    WatchInv self { w with femMailbox := w.femMailbox ++ [.kqueueFileEvent ident flags] } := by
  set w' : World A := { w with
    femMailbox := w.femMailbox ++ [.kqueueFileEvent ident flags] } with hw'
  have hfold : ∀ p, w'.femMailbox.foldl (regsStep p) (regs w'.fem p) =
      w.femMailbox.foldl (regsStep p) (regs w.fem p) := by
    intro p
    rw [hw', List.foldl_append]
    rfl
  refine ⟨h.db, h.fem, h.onePath, fun p => ?_, h.requests, fun p => ?_⟩
  · rw [hfold p]; exact h.own p
  · have ha := h.agree p
    rw [effect_congr (hfold p) rfl]; exact ha

omit [Neodatis SvdFileEventBinding] in
/-- The file events manager handles a message. -/
theorem WatchInv.handle (h : WatchInv self w) {m : Msg A} {rest : List (Msg A)} {c : Sys}
    (hm : w.femMailbox = m :: rest) (hg : Granted w.fem (m, c)) {mail : List (Mail A)}
    (hmail : mail.filterMap toFem = []) :
    WatchInv self { w with
      femMailbox := rest, fem := w.fem.step (m, c), mailbox := w.mailbox ++ mail } := by
  set w' : World A := { w with
    femMailbox := rest, fem := w.fem.step (m, c), mailbox := w.mailbox ++ mail } with hw'
  have hfw : forwarded w' = forwarded w := by
    unfold forwarded
    rw [hw', List.filterMap_append, hmail, List.append_nil]
  have hfold : ∀ p, w'.femMailbox.foldl (regsStep p) (regs w'.fem p) =
      w.femMailbox.foldl (regsStep p) (regs w.fem p) := by
    intro p
    rw [hm, List.foldl_cons, ← regs_step h.fem hg]
  refine ⟨h.db, inv_step h.fem hg.env, h.onePath, fun p => ?_, hfw ▸ h.requests, fun p => ?_⟩
  · rw [hfold p]; exact h.own p
  · have ha := h.agree p
    rw [effect_congr (hfold p) hfw]; exact ha

/-- An answer removes a binding that was about to be removed. -/
theorem WatchInv.answer (h : WatchInv self w) {k : ℕ} {b : SvdFileEventBinding}
    (hk : w.asked[k]? = some b) :
    WatchInv self { w with db := w.db.remove b.uuid, asked := w.asked.eraseIdx k } := by
  set w' : World A := { w with db := w.db.remove b.uuid, asked := w.asked.eraseIdx k } with hw'
  have hb : w'.bindings = w.bindings.filter fun a => a.uuid ≠ b.uuid :=
    bindings_remove h.db b.uuid
  have hpath : (w'.bindings.map (·.absoluteFilePath)).Nodup := by
    rw [hb]
    exact h.onePath.sublist (List.filter_sublist.map _)
  refine ⟨wf_remove h.db _, h.fem, hpath, h.own, h.requests, fun p => ?_⟩
  have ha := h.agree p
  have hbound : Bound w' p ↔ Bound w p := by
    unfold Bound
    rw [hb]
    constructor
    · rintro ⟨a, hm, hp, hask⟩
      obtain ⟨hm1, hm2⟩ := List.mem_filter.mp hm
      refine ⟨a, hm1, hp, fun x hx hu => ?_⟩
      -- the entry answered is the one of `b`, which `a` is not
      obtain ⟨j, hj, rfl⟩ := List.getElem_of_mem hx
      by_cases hjk : j = k
      · subst hjk
        rw [List.getElem?_eq_getElem hj, Option.some.injEq] at hk
        rw [hk] at hu
        exact absurd hu.symm (by simpa using hm2)
      · exact hask _ (List.mem_eraseIdx_iff_getElem.mpr ⟨j, hj, hjk, rfl⟩) hu
    · rintro ⟨a, hm, hp, hask⟩
      have hne : a.uuid ≠ b.uuid := fun hu => hask b (List.mem_of_getElem? hk) hu.symm
      refine ⟨a, List.mem_filter.mpr ⟨hm, by simpa using hne⟩, hp, fun x hx => ?_⟩
      exact hask x (List.mem_of_mem_eraseIdx hx)
  rw [hbound]; exact ha

end Inv

/-! ### Runs -/

section Runs

variable {home : String} {self : A} {w : World A}

omit [DecidableEq A] [Neodatis SvdFileEventBinding] in
/-- The file of the `DestroyFileWatch` that a step handles. -/
def destroys (w : World A) : Ev → Option String
  | .manager _ =>
    match w.mailbox with
    | .destroyFileWatch fileName :: _ => some fileName
    | _ => none
  | _ => none

/-- A random uuid is not in use, and the calls of the file events manager succeed. -/
def Env (w : World A) : Ev → Prop
  | .manager new => ∀ b ∈ w.bindings ++ w.asked, b.uuid ≠ new.uuid
  | .fem c => ∀ m ∈ w.femMailbox.head?, Granted w.fem (m, c)
  | _ => True

/-- When `DestroyFileWatch` is handled, the watches that are not about to be removed have their
requests still waiting in the mailbox, except the watch to be destroyed, whose request has left it.
-/
def Careful (home : String) (w : World A) (e : Ev) : Prop :=
  ∀ fileName ∈ destroys w e, ∀ b ∈ w.bindings, (∀ a ∈ w.asked, a.uuid ≠ b.uuid) →
    (waiting w b.absoluteFilePath = true ↔ b.absoluteFilePath ≠ join home fileName)

instance (w : World A) : DecidablePred (Env w)
  | .manager new => inferInstanceAs (Decidable (∀ b ∈ w.bindings ++ w.asked, b.uuid ≠ new.uuid))
  | .fem c => inferInstanceAs (Decidable (∀ m ∈ w.femMailbox.head?, Granted w.fem (m, c)))
  | .create _ _ _ => isTrue trivial
  | .destroy _ => isTrue trivial
  | .kqueue _ _ => isTrue trivial
  | .answer _ => isTrue trivial

instance (home : String) (w : World A) (e : Ev) : Decidable (Careful home w e) :=
  inferInstanceAs (Decidable (∀ fileName ∈ destroys w e, ∀ b ∈ w.bindings, _ → _))

omit [Neodatis SvdFileEventBinding] in
/-- What the account manager does with a message. -/
theorem WatchInv.receive (h : WatchInv self w) {new : Fresh} {m : Mail A} {rest : List (Mail A)}
    (hm : w.mailbox = m :: rest) (he : Env w (.manager new)) (hc : Careful home w (.manager new)) :
    WatchInv self (World.receive home self { w with mailbox := rest } new m).1 := by
  have hpop : toFem m = none → WatchInv self { w with mailbox := rest } := by
    intro hn
    refine h.of_same rfl rfl rfl rfl ?_
    unfold forwarded
    rw [hm, List.filterMap_cons, hn]
  cases m with
  | createFileWatch fileName flags serviceName =>
    have h' := hpop rfl
    rcases ho : World.bindingOn { w with mailbox := rest } (join home fileName) with _ | b
    · simp only [World.receive, World.createFileWatch, ho]
      exact h'.create (b := ⟨join home fileName, serviceName, flags, new.uuid, new.now⟩) he ho
    · simp only [World.receive, World.createFileWatch, ho]
      exact h'
  | destroyFileWatch fileName =>
    have hd : fileName ∈ destroys w (.manager new) := by
      unfold destroys
      rw [hm]
      exact rfl
    have hfw : ∀ p, waiting { w with mailbox := rest } p = waiting w p := by
      intro p
      unfold waiting forwarded
      rw [hm]
      rfl
    refine ((hpop rfl).destroy_iff home fileName).mpr fun b hb hask => ?_
    rw [hfw]; exact hc fileName hd b hb hask
  | events m => exact h.forward hm
  | fileEvent path flags => exact hpop rfl
  | apiSuccess => exact hpop rfl

/-- **Every careful step keeps the invariant.** -/
theorem watchInv_step (h : WatchInv self w) {e : Ev} (he : Env w e) (hc : Careful home w e) :
    WatchInv self (step home self w e) := by
  cases e with
  | create fileName flags serviceName =>
    exact h.of_same rfl rfl rfl rfl (by simp [step, forwarded, toFem])
  | destroy fileName => exact h.of_same rfl rfl rfl rfl (by simp [step, forwarded, toFem])
  | kqueue ident flags =>
    exact h.report ident flags
  | manager new =>
    rcases hm : w.mailbox with _ | ⟨m, rest⟩
    · simp only [step, hm]; exact h
    · simp only [step, hm]; exact h.receive hm he hc
  | fem c =>
    rcases hm : w.femMailbox with _ | ⟨m, rest⟩
    · simp only [step, hm]; exact h
    · simp only [step, hm]
      exact h.handle hm (he m (by rw [hm]; exact rfl)) (toFem_told self m _)
  | answer k =>
    rcases hk : w.asked[k]? with _ | b
    · simp only [step, hk]; exact h
    · simp only [step, hk]; exact h.answer hk

/-- Bindings and registrations, in a state that is reached. -/
structure WatchLaw (home : String) (me : A) (w : World A) : Prop where
  /-- with all messages delivered, the bindings and the registrations have the same paths -/
  same : Settled w → w.asked = [] →
    ∀ p, Registered me w p ↔ ∃ b ∈ w.bindings, b.absoluteFilePath = p
  /-- while services are being asked, this is so without the bindings about to be removed -/
  agree : Settled w → ∀ p, Registered me w p ↔ Bound w p
  /-- the end of a watch concerns the watch on that file -/
  destroyed : ∀ fileName rest new, w.mailbox = .destroyFileWatch fileName :: rest →
    ∀ p, Bound (step home me w (.manager new)) p ↔ Bound w p ∧ p ≠ join home fileName
  /-- a file without a binding can be watched -/
  created : ∀ fileName flags serviceName rest new,
    w.mailbox = .createFileWatch fileName flags serviceName :: rest → Env w (.manager new) →
      w.bindingOn (join home fileName) = none →
        Bound (step home me w (.manager new)) (join home fileName)

omit [Neodatis SvdFileEventBinding] in
theorem WatchInv.registered_iff (h : WatchInv self w) (hs : Settled w) (p : String) :
    Registered self w p ↔ Bound w p := by
  obtain ⟨h1, h2⟩ := hs
  have heff : effect w p = regs w.fem p := by
    unfold effect
    rw [h1, h2]
    rfl
  have hown := h.own p
  rw [h1] at hown
  rw [← h.agree p, heff]
  constructor
  · rintro ⟨i, l, hl, -⟩
    rw [h.fem.regs_eq hl]; exact h.fem.nonempty i p l hl
  · intro hne
    obtain ⟨i, hl⟩ := h.fem.exists_lookup hne
    obtain ⟨x, hx⟩ := List.exists_mem_of_ne_nil _ hne
    exact ⟨i, _, hl, x, hx, hown x hx⟩

omit [DecidableEq A] [Neodatis SvdFileEventBinding] in
theorem bound_of_asked_nil (h : w.asked = []) (p : String) :
    Bound w p ↔ ∃ b ∈ w.bindings, b.absoluteFilePath = p := by
  unfold Bound
  rw [h]
  simp

theorem WatchInv.law (h : WatchInv self w) : WatchLaw home self w := by
  refine ⟨fun hs ha p => ?_, h.registered_iff, ?_, ?_⟩
  · rw [h.registered_iff hs, bound_of_asked_nil ha]
  · intro fileName rest new hm p
    have hstep : step home self w (.manager new) =
        (World.destroyFileWatch home self { w with mailbox := rest } fileName).1 := by
      simp only [step, hm, World.receive]
    rw [hstep]
    exact bound_destroy (w := { w with mailbox := rest }) h.db h.onePath home self fileName p
  · intro fileName flags serviceName rest new hm he ho
    have hstep : (step home self w (.manager new)).bindings =
        w.bindings ++ [⟨join home fileName, serviceName, flags, new.uuid, new.now⟩] ∧
        (step home self w (.manager new)).asked = w.asked := by
      have ho' : World.bindingOn { w with mailbox := rest } (join home fileName) = none := ho
      simp only [step, hm, World.receive, World.createFileWatch, ho']
      refine ⟨?_, rfl⟩
      exact bindings_saveNew h.db fun a ha => he a (List.mem_append_left _ ha)
    refine ⟨⟨join home fileName, serviceName, flags, new.uuid, new.now⟩, ?_, rfl, ?_⟩
    · rw [hstep.1]; simp
    · rw [hstep.2]; exact fun a ha => he a (List.mem_append_right _ ha)

end Runs

end Watches

/-! ### Two files -/

instance : Neodatis SvdFileEventBinding := Neodatis.stable

/-- A file is watched, the watch destroyed, and then another file is watched. -/
def oneAfterAnother : List Ev :=
  [.create "a" 6 "svc", .manager ⟨⟨0, 1⟩, 10⟩, .manager ⟨⟨0, 9⟩, 10⟩, .fem ⟨4, 0⟩, .destroy "a",
    .manager ⟨⟨0, 9⟩, 20⟩, .manager ⟨⟨0, 9⟩, 20⟩, .fem ⟨-1, -1⟩, .answer 0, .create "b" 6 "svc",
    .manager ⟨⟨0, 9⟩, 30⟩, .manager ⟨⟨0, 2⟩, 30⟩, .manager ⟨⟨0, 9⟩, 30⟩, .fem ⟨5, 0⟩]

/-- Two files are watched, and the watch on the first is destroyed. -/
def oneOfTwo : List Ev :=
  [.create "a" 6 "svc", .create "b" 6 "svc", .manager ⟨⟨0, 1⟩, 10⟩, .manager ⟨⟨0, 2⟩, 20⟩,
    .manager ⟨⟨0, 9⟩, 30⟩, .manager ⟨⟨0, 9⟩, 30⟩, .fem ⟨4, 0⟩, .fem ⟨5, 0⟩, .destroy "a",
    .manager ⟨⟨0, 9⟩, 40⟩, .manager ⟨⟨0, 9⟩, 40⟩, .manager ⟨⟨0, 9⟩, 40⟩, .fem ⟨-1, -1⟩, .answer 0]

end ServeD.Managers.FileWatch
