import ServeD.Managers.AccountUtils

/-! # Handing out user ports

The handlers of `User.RegisterUserPort`, `User.RemoveAllUserPorts` and `System.GetPort` of
`SvdAccountManager`, and of `System.RegisterUserPort` of `SvdSystemManager`. A headless manager
draws the port of `RegisterUserPort` itself; a connected one asks the system manager for it and
stores it when the answer is in, on another thread, so also while `GetPort` is between picking its
port and storing it.

Of the three ways to a port only `GetPort` looks at the records. The records keep distinct numbers
and no port is answered twice (`PortsLaw`) exactly when no port is registered at the moment it is
stored (`portsLaw_iff`). -/

namespace ServeD.Managers.Ports

open ServeD.Lib.ObjectStore ServeD.Lib.Runs ServeD.Api.Records ServeD.Db.Client ServeD.Db.Invariant
open ServeD.Managers.AccountUtils

/-- An answer; the content of a success is a port, as text. -/
inductive Reply where
  | apiSuccess (message : String) (content : Option ℤ)
  | apiError (message : String)
  | port (number : ℤ)
  deriving DecidableEq, Repr

/-- The port in an answer. -/
def Reply.given : Reply → Option ℤ
  | .apiSuccess _ content => content
  | .apiError _ => none
  | .port number => some number

/-- The answer to `RemoveAllUserPorts`. -/
def portsRemoved : Reply := .apiSuccess "User ports were removed" none

structure Manager where
  headless : Bool
  /-- `account.uid` -/
  uid : ℤ
  db : DBClient SvdUserPort
  /-- the questions to the system manager, with the port if it has answered -/
  asks : List (Option ℤ)
  /-- the port that `GetPort` has picked and not stored yet -/
  picked : Option ℤ
  /-- the answers given -/
  log : List Reply

inductive Event where
  /-- `User.RegisterUserPort` -/
  | registerUserPort (draws : List Draw) (new : Fresh)
  /-- `System.GetPort`, up to the choice of a port -/
  | getPort (draws : List (List Draw)) (now : ℤ)
  /-- the rest of `System.GetPort` -/
  | register (new : Fresh)
  /-- `User.RemoveAllUserPorts` -/
  | removeAllUserPorts
  /-- the system manager handles the `k`-th question -/
  | serve (k : ℕ) (draws : List Draw)
  /-- its answer is in -/
  | succeed (k : ℕ) (new : Fresh)
  /-- the question times out -/
  | fail (k : ℕ)
  deriving DecidableEq, Repr

/-- Conversion to a 32-bit integer. -/
def toInt (n : ℤ) : ℤ := Int.bmod n (2 ^ 32)

/-- The port of a headless `GetPort`. -/
def headlessPort (uid now : ℤ) : ℤ :=
  let randomPort := toInt (toInt (1024 + uid) + now.tmod 10000)
  if randomPort < 0 then toInt (-randomPort) else randomPort

namespace Manager

/-- Store a port and answer it. -/
def give (s : Manager) (new : Fresh) (port : ℤ) (reply : Reply) : Manager :=
  { s with db := AccountUtils.registerUserPort s.db new port, log := s.log ++ [reply] }

/-- `SvdUserPorts(db).map { portRecord => db ~ portRecord }`. -/
def removePorts (db : DBClient SvdUserPort) : DBClient SvdUserPort :=
  (classQueryCollection db.currentODB).foldl (fun db o => db.remove o.value.uuid) db

def step (s : Manager) : Event → Manager
  | .registerUserPort draws new =>
    if s.picked.isSome then s
    else if s.headless then
      match randomFreePort draws with
      | none => s
      | some port =>
        s.give new port (.apiSuccess "Registered port for headless account" (some port))
    else { s with asks := s.asks ++ [none] }
  | .getPort draws now =>
    if s.picked.isSome then s
    else if s.headless then { s with log := s.log ++ [.port (headlessPort s.uid now)] }
    else { s with picked := randomUserPort s.db draws }
  | .register new =>
    match s.picked with
    | none => s
    | some port => { s.give new port (.port port) with picked := none }
  | .removeAllUserPorts =>
    if s.picked.isSome then s
    else { s with db := removePorts s.db, log := s.log ++ [portsRemoved] }
  | .serve k draws =>
    match s.asks[k]? with
    | some none => { s with asks := s.asks.set k (randomFreePort draws) }
    | _ => s
  | .succeed k new =>
    match s.asks[k]? with
    | some (some port) =>
      { s.give new port (.apiSuccess ("Port registered: " ++ toString port) (some port)) with
        asks := s.asks.eraseIdx k }
    | _ => s
  | .fail k =>
    if k < s.asks.length then
      { s with asks := s.asks.eraseIdx k, log := s.log ++ [.apiError "Port gathering failed"] }
    else s

end Manager

/-- A manager just started on a database. -/
def start (headless : Bool) (uid : ℤ) (db : DBClient SvdUserPort) : Manager :=
  ⟨headless, uid, db, [], none, []⟩

/-! ### The law -/

/-- The ports given since the ports were last removed. -/
def givenSince (log : List Reply) : List ℤ :=
  run (fun ports reply => if reply = portsRemoved then [] else ports ++ reply.given.toList) [] log

/-- No port is registered twice, and the ports answered are of the pool and not answered before,
since the last removal. -/
structure PortsLaw (db : DBClient SvdUserPort) (log : List Reply) : Prop where
  distinct : (numbers db).Nodup
  once : EachEntry (fun pre reply => ∀ port, reply.given = some port →
    InUserPool port ∧ port ∉ givenSince pre) log

/-- The messages of the claim: `GetPort` is for a connected manager, and `randomUUID` gives a uuid
that is not in use. -/
def Env (s : Manager) : Event → Prop
  | .registerUserPort _ new => s.db.find new.uuid = none
  | .getPort _ _ => s.headless = false
  | .register new => s.db.find new.uuid = none
  | .succeed _ new => s.db.find new.uuid = none
  | _ => True

/-- A port that is stored is not registered. -/
def Unregistered (s : Manager) : Event → Prop
  | .registerUserPort draws _ => s.picked = none → s.headless = true →
    ∀ port, randomFreePort draws = some port → userPortRegistered s.db port = false
  | .register _ => ∀ port, s.picked = some port → userPortRegistered s.db port = false
  | .succeed k _ => ∀ port, s.asks[k]? = some (some port) → userPortRegistered s.db port = false
  | _ => True

/-! ### Removal -/

theorem objects_foldl_remove : ∀ (l : List (Instance SvdUserPort)) {db : DBClient SvdUserPort},
    WF db → WF (l.foldl (fun db o => db.remove o.value.uuid) db) ∧
      (l.foldl (fun db o => db.remove o.value.uuid) db).currentODB.objects =
        db.currentODB.objects.filter fun o => o.value.uuid ∉ l.map fun a => a.value.uuid
  | [], db, hw => ⟨hw, by simp⟩
  | a :: l, db, hw => by
    obtain ⟨hw', hobj⟩ := objects_foldl_remove l (wf_remove hw a.value.uuid)
    refine ⟨hw', hobj.trans ?_⟩
    rw [objects_remove hw, List.filter_filter]
    refine List.filter_congr fun o _ => ?_
    rw [← Bool.decide_and, decide_eq_decide, List.map_cons, List.mem_cons, not_or]
    exact and_comm

theorem wf_removePorts {db : DBClient SvdUserPort} (hw : WF db) : WF (Manager.removePorts db) :=
  (objects_foldl_remove _ hw).1

theorem numbers_removePorts {db : DBClient SvdUserPort} (hw : WF db) :
    numbers (Manager.removePorts db) = [] := by
  have h := (objects_foldl_remove (classQueryCollection db.currentODB) hw).2
  unfold numbers Manager.removePorts
  rw [List.map_eq_nil_iff]
  refine h.trans (List.filter_eq_nil_iff.mpr fun o ho => ?_)
  have hm : o.value.uuid ∈ (classQueryCollection db.currentODB).map fun a => a.value.uuid :=
    List.mem_map_of_mem ho
  simpa using hm

/-! ### One event -/

theorem givenSince_concat (log : List Reply) (reply : Reply) :
    givenSince (log ++ [reply]) =
      if reply = portsRemoved then [] else givenSince log ++ reply.given.toList :=
  run_concat _ _ _

/-- What holds whatever is drawn. -/
structure Base (s : Manager) : Prop where
  wf : WF s.db
  registered : ∀ port ∈ givenSince s.log, port ∈ numbers s.db
  asked : ∀ port, some port ∈ s.asks → InUserPool port
  picked : ∀ port, s.picked = some port → InUserPool port

section Step

variable {s : Manager} {new : Fresh} {port : ℤ} {reply : Reply}

theorem ne_portsRemoved (hr : reply.given = some port) : reply ≠ portsRemoved := by
  rintro rfl
  cases hr

theorem Base.give (hb : Base s) (hnew : s.db.find new.uuid = none) (reply : Reply)
    (hr : reply.given = some port) : Base (s.give new port reply) := by
  have hnum := numbers_registerUserPort hb.wf hnew port
  refine ⟨wf_registerUserPort hb.wf new port, fun p hp => ?_, hb.asked, hb.picked⟩
  simp only [Manager.give] at hp ⊢
  rw [givenSince_concat, if_neg (ne_portsRemoved hr), hr, List.mem_append] at hp
  rw [hnum, List.mem_append]
  exact hp.imp (hb.registered p) (by simp)

/-- **A port stored and answered** keeps the law exactly when it was not registered. -/
theorem law_give (hb : Base s) (hl : PortsLaw s.db s.log) (hnew : s.db.find new.uuid = none)
    (reply : Reply) (hr : reply.given = some port) (hp : InUserPool port) :
    PortsLaw (s.give new port reply).db (s.give new port reply).log ↔
      userPortRegistered s.db port = false := by
  have hnum := numbers_registerUserPort hb.wf hnew port
  rw [userPortRegistered_eq_false]
  constructor
  · intro h hmem
    have hd := h.distinct
    simp only [Manager.give] at hd
    rw [hnum, List.nodup_append] at hd
    exact hd.2.2 port hmem port (by simp) rfl
  · intro hmem
    refine ⟨?_, eachEntry_concat.mpr ⟨hl.once, fun p hp' => ?_⟩⟩
    · simp only [Manager.give]
      rw [hnum, List.nodup_append]
      refine ⟨hl.distinct, by simp, fun a ha b hb' hab => ?_⟩
      rw [hab, List.mem_singleton.mp hb'] at ha
      exact hmem ha
    · rw [hr, Option.some.injEq] at hp'
      subst hp'
      exact ⟨hp, fun hg => hmem (hb.registered port hg)⟩

/-- An answer without a port. -/
theorem law_answer (hl : PortsLaw s.db s.log) (reply : Reply) (hr : reply.given = none) :
    PortsLaw s.db (s.log ++ [reply]) := by
  refine ⟨hl.distinct, eachEntry_concat.mpr ⟨hl.once, fun port hp => ?_⟩⟩
  rw [hr] at hp; cases hp

theorem Base.step (hb : Base s) {e : Event} (he : Env s e) : Base (s.step e) := by
  cases e with
  | registerUserPort draws new =>
    simp only [Manager.step]
    split_ifs with hp hh
    · exact hb
    · rcases randomFreePort draws with _ | port
      · exact hb
      · exact hb.give he _ rfl
    · refine ⟨hb.wf, hb.registered, fun port hport => ?_, hb.picked⟩
      rcases List.mem_append.mp hport with h | h
      · exact hb.asked port h
      · simp at h
  | getPort draws now =>
    have hh : s.headless = false := he
    simp only [Manager.step, hh, Bool.false_eq_true, if_false]
    split_ifs with hp
    · exact hb
    · exact ⟨hb.wf, hb.registered, hb.asked, fun port h => (randomUserPort_spec h).1⟩
  | register new =>
    simp only [Manager.step]
    rcases hp : s.picked with _ | port
    · exact hb
    · have hg := hb.give he (.port port) rfl
      exact ⟨hg.wf, hg.registered, hg.asked, fun p h => by cases h⟩
  | removeAllUserPorts =>
    simp only [Manager.step]
    split_ifs with hp
    · exact hb
    · refine ⟨wf_removePorts hb.wf, fun port h => ?_, hb.asked, hb.picked⟩
      simp only at h
      rw [givenSince_concat, if_pos rfl] at h
      cases h
  | serve k draws =>
    simp only [Manager.step]
    split
    · refine ⟨hb.wf, hb.registered, fun port hport => ?_, hb.picked⟩
      rcases List.mem_or_eq_of_mem_set hport with h | h
      · exact hb.asked port h
      · exact randomFreePort_inUserPool h.symm
    · exact hb
  | succeed k new =>
    simp only [Manager.step]
    split
    · next port hk =>
      have hg := hb.give he (.apiSuccess ("Port registered: " ++ toString port) (some port)) rfl
      exact ⟨hg.wf, hg.registered, fun p h => hb.asked p (List.mem_of_mem_eraseIdx h), hg.picked⟩
    · exact hb
  | fail k =>
    simp only [Manager.step]
    split_ifs with hk
    · refine ⟨hb.wf, fun port h => hb.registered port ?_,
        fun p h => hb.asked p (List.mem_of_mem_eraseIdx h), hb.picked⟩
      simp only at h
      rw [givenSince_concat] at h
      simpa [portsRemoved, Reply.given] using h
    · exact hb

/-- One event keeps the law exactly when a port it stores is not registered. -/
theorem law_step (hb : Base s) (hl : PortsLaw s.db s.log) {e : Event} (he : Env s e) :
    PortsLaw (s.step e).db (s.step e).log ↔ Unregistered s e := by
  cases e with
  | registerUserPort draws new =>
    simp only [Manager.step, Unregistered]
    split_ifs with hp hh
    · exact iff_of_true hl fun h => by rw [h] at hp; cases hp
    · have hpn : s.picked = none := by simpa using hp
      rcases hf : randomFreePort draws with _ | port
      · exact iff_of_true hl fun _ _ port h => by cases h
      · refine (law_give hb hl he _ rfl (randomFreePort_inUserPool hf)).trans ?_
        refine ⟨fun h _ _ p hpe => ?_, fun h => h hpn hh port rfl⟩
        cases hpe; exact h
    · exact iff_of_true hl fun _ h => absurd h hh
  | getPort draws now =>
    have hh : s.headless = false := he
    simp only [Manager.step, hh, Bool.false_eq_true, if_false]
    split_ifs with hp
    · exact iff_of_true hl trivial
    · exact iff_of_true hl trivial
  | register new =>
    simp only [Manager.step, Unregistered]
    rcases hp : s.picked with _ | port
    · exact iff_of_true hl fun port h => by cases h
    · refine (law_give hb hl he (.port port) rfl (hb.picked port hp)).trans ?_
      refine ⟨fun h p hpe => ?_, fun h => h port rfl⟩
      cases hpe; exact h
  | removeAllUserPorts =>
    simp only [Manager.step]
    refine iff_of_true ?_ trivial
    split_ifs with hp
    · exact hl
    · refine ⟨?_, (law_answer hl portsRemoved rfl).once⟩
      simp only
      rw [numbers_removePorts hb.wf]
      exact List.nodup_nil
  | serve k draws =>
    simp only [Manager.step]
    split <;> exact iff_of_true hl trivial
  | succeed k new =>
    simp only [Manager.step, Unregistered]
    split
    · next port hk =>
      have hport := hb.asked port (List.mem_of_getElem? hk)
      refine (law_give hb hl he (.apiSuccess ("Port registered: " ++ toString port) (some port))
        rfl hport).trans ?_
      refine ⟨fun h p hpe => ?_, fun h => h port hk⟩
      rw [hk] at hpe
      cases hpe; exact h
    · next hk => exact iff_of_true hl fun port h => absurd h (hk port)
  | fail k =>
    simp only [Manager.step]
    refine iff_of_true ?_ trivial
    split_ifs with hk
    · exact law_answer hl _ rfl
    · exact hl

end Step

theorem base_start {db : DBClient SvdUserPort} (hw : WF db) (headless : Bool) (uid : ℤ) :
    Base (start headless uid db) where
  wf := hw
  registered := fun port h => by cases h
  asked := fun port h => by cases h
  picked := fun port h => by cases h

/-- **User ports are handed out once exactly when no port is registered at the moment it is
stored**: along every run, from a database with distinct numbers, for every draw and every answer of
`portAvailable`. -/
theorem portsLaw_iff {db : DBClient SvdUserPort} (hw : WF db) (hd : (numbers db).Nodup)
    (headless : Bool) (uid : ℤ) (evs : List Event)
    (henv : Meets Manager.step Env (start headless uid db) evs) :
    (∀ pre, pre <+: evs → PortsLaw (run Manager.step (start headless uid db) pre).db
        (run Manager.step (start headless uid db) pre).log) ↔
      Meets Manager.step Unregistered (start headless uid db) evs := by
  have hbase := base_start hw headless uid
  have hlaw : PortsLaw (start headless uid db).db (start headless uid db).log := ⟨hd, eachEntry_nil⟩
  have hall := always_iff_meets (P := fun s => Base s ∧ PortsLaw s.db s.log) (E := Env)
    (C := Unregistered) (fun s e hs he => ?_) ⟨hbase, hlaw⟩ henv
  · rw [← hall]
    constructor
    · intro h pre hp
      have hpre : Base (run Manager.step (start headless uid db) pre) :=
        (henv.of_prefix hp).invariant (fun _ _ hb he => hb.step he) hbase
      exact ⟨hpre, h pre hp⟩
    · exact fun h pre hp => (h pre hp).2
  · rw [← law_step hs.1 hs.2 he]
    exact ⟨fun h => h.2, fun h => ⟨hs.1.step he, h⟩⟩

/-- A port by `GetPort`, and another one by way of the system manager. -/
def twoPorts : List Event :=
  [.getPort [[⟨5, true⟩]] 0, .register ⟨⟨0, 1⟩, 10⟩, .registerUserPort [] ⟨⟨0, 2⟩, 20⟩,
    .serve 0 [⟨5, false⟩, ⟨6, true⟩], .succeed 0 ⟨⟨0, 3⟩, 30⟩]

/-- A headless manager draws the same port twice; nothing is bound to it yet. -/
def samePort : List Event :=
  [.registerUserPort [⟨5, true⟩] ⟨⟨0, 1⟩, 10⟩, .registerUserPort [⟨5, true⟩] ⟨⟨0, 2⟩, 20⟩]

theorem portsLaw_twoPorts :
    PortsLaw (run Manager.step (start false 501 DBClient.init) twoPorts).db
        (run Manager.step (start false 501 DBClient.init) twoPorts).log ∧
      numbers (run Manager.step (start false 501 DBClient.init) twoPorts).db = [10005, 10006] := by
  have henv : Meets Manager.step Env (start false 501 DBClient.init) twoPorts :=
    ⟨rfl, rfl, rfl, trivial, rfl, trivial⟩
  refine ⟨(portsLaw_iff wf_init List.nodup_nil false 501 twoPorts henv).mpr ?_ _ List.prefix_rfl,
    by decide⟩
  refine ⟨trivial, fun port h => ?_, fun _ h => (by cases h), trivial,
    fun port h => ?_, trivial⟩
  · cases h; rfl
  · cases h; rfl

/-- The port is registered twice, and given in two answers. -/
theorem not_portsLaw_samePort :
    Meets Manager.step Env (start true 501 DBClient.init) samePort ∧
      ¬ PortsLaw (run Manager.step (start true 501 DBClient.init) samePort).db
        (run Manager.step (start true 501 DBClient.init) samePort).log := by
  refine ⟨⟨rfl, rfl, trivial⟩, fun h => ?_⟩
  exact absurd h.distinct (by decide)

end ServeD.Managers.Ports
