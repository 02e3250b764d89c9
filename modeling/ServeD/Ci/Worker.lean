import ServeD.Lib.Runs

/-! # The CI worker

`Worker` of `Worker.scala`: an actor that runs a list of tasks one after another. It goes on by
sending `Build` to itself, the message with which a client asks for the build.

A `Site` is the worker with its mailbox and the tasks it has started: clients send, tasks finish and
the worker handles the first message of its mailbox, in any order (`Event`). The log tells what
happened: tasks started, results, messages sent. `runTask` only announces its task in the source;
the process it stands for is the environment's, which answers a started task with a
`ProcessFinished`.

A build that is asked for once, with no other client, goes as `Phase` says, and its log is that of
`OneBuild`. -/

namespace ServeD.Ci.Worker

open ServeD.Lib.Runs

/-- `Task`: the command to run. -/
structure Task where
  cmd : String
  deriving DecidableEq, Repr

def Task.clean : Task := ⟨"sbt clean"⟩
def Task.compile : Task := ⟨"sbt compile"⟩
def Task.update : Task := ⟨"sbt update"⟩
def Task.test : Task := ⟨"sbt test"⟩

/-- `ProcessFinished`. -/
structure ProcessFinished where
  exitCode : ℤ
  stdout : String
  stderr : String
  deriving DecidableEq, Repr

/-- `BuildResult`. -/
inductive BuildResult where
  | buildFailed (history : List ProcessFinished)
  | buildSucceed (history : List ProcessFinished)
  deriving DecidableEq, Repr

/-- Who can send to the worker: a client, or the worker itself. -/
inductive ActorRef where
  | self
  | client (id : ℕ)
  deriving DecidableEq, Repr

/-- The messages the worker reacts to. -/
inductive Msg where
  | build (sender : ActorRef)
  | processFinished (res : ProcessFinished)
  deriving DecidableEq, Repr

/-- The arguments of the behaviour `waiting`. -/
structure State where
  history : List ProcessFinished
  tasks : List Task
  ci : Option ActorRef
  deriving DecidableEq, Repr

/-- What the worker does besides becoming another `waiting`. -/
inductive Effect where
  | runTask (task : Task)
  | tell (dest : ActorRef) (msg : BuildResult)
  | tellSelf
  deriving DecidableEq, Repr

/-- `ci orElse Some(sender)`. -/
def State.requester (w : State) (sender : ActorRef) : ActorRef := w.ci.getD sender

/-- `waiting(history, tasks, ci)`. -/
def waiting (w : State) : Msg → State × List Effect
  | .build sender =>
    match w.tasks with
    | task :: rest =>
      ({ w with tasks := rest, ci := some (w.requester sender) }, [.runTask task])
    | [] => (w, [.tell (w.requester sender) (.buildSucceed w.history)])
  | .processFinished res =>
    if res.exitCode = 0 then ({ w with history := res :: w.history }, [.tellSelf])
    else (w, w.ci.toList.map fun ci => .tell ci (.buildFailed (res :: w.history)))

/-! ### The worker among its clients and tasks -/

/-- What is seen from outside. -/
inductive Entry where
  | started (task : Task)
  | finished (res : ProcessFinished)
  | sent (dest : ActorRef) (msg : BuildResult)
  deriving DecidableEq, Repr

structure Site where
  worker : State
  mailbox : List Msg
  /-- the tasks started and not finished -/
  running : List Task
  log : List Entry
  deriving DecidableEq, Repr

inductive Event where
  /-- a client sends `Build` -/
  | ask (client : ℕ)
  /-- the `k`-th running task finishes -/
  | finish (k : ℕ) (res : ProcessFinished)
  /-- the worker handles the first message of its mailbox -/
  | deliver
  deriving DecidableEq, Repr

/-- The effects of the worker take place. -/
def perform (s : Site) : Effect → Site
  | .runTask task => { s with running := s.running ++ [task], log := s.log ++ [.started task] }
  | .tell dest msg => { s with log := s.log ++ [.sent dest msg] }
  | .tellSelf => { s with mailbox := s.mailbox ++ [.build .self] }

def step (s : Site) : Event → Site
  | .ask c => { s with mailbox := s.mailbox ++ [.build (.client c)] }
  | .finish k res =>
    if k < s.running.length then
      { s with
        mailbox := s.mailbox ++ [.processFinished res]
        running := s.running.eraseIdx k
        log := s.log ++ [.finished res] }
    else s
  | .deliver =>
    match s.mailbox with
    | [] => s
    | m :: rest => run perform { s with worker := (waiting s.worker m).1, mailbox := rest }
        (waiting s.worker m).2

/-- A new worker, with nothing in its mailbox. -/
def init (tasks : List Task) : Site := ⟨⟨[], tasks, none⟩, [], [], []⟩

/-- The tasks started, in order. -/
def starts (log : List Entry) : List Task :=
  log.filterMap fun | .started task => some task | _ => none

/-- The results of the tasks that have finished, in order. -/
def results (log : List Entry) : List ProcessFinished :=
  log.filterMap fun | .finished res => some res | _ => none

/-- The messages sent, in order. -/
def answers (log : List Entry) : List (ActorRef × BuildResult) :=
  log.filterMap fun | .sent dest msg => some (dest, msg) | _ => none

section Log

variable (l l' : List Entry) (task : Task) (res : ProcessFinished) (dest : ActorRef)
    (msg : BuildResult)

@[simp] theorem starts_append : starts (l ++ l') = starts l ++ starts l' := List.filterMap_append
@[simp] theorem starts_nil : starts [] = [] := rfl
@[simp] theorem starts_started : starts (.started task :: l) = task :: starts l := rfl
@[simp] theorem starts_finished : starts (.finished res :: l) = starts l := rfl
@[simp] theorem starts_sent : starts (.sent dest msg :: l) = starts l := rfl

@[simp] theorem results_append : results (l ++ l') = results l ++ results l' :=
  List.filterMap_append
@[simp] theorem results_nil : results [] = [] := rfl
@[simp] theorem results_started : results (.started task :: l) = results l := rfl
@[simp] theorem results_finished : results (.finished res :: l) = res :: results l := rfl
@[simp] theorem results_sent : results (.sent dest msg :: l) = results l := rfl

@[simp] theorem answers_append : answers (l ++ l') = answers l ++ answers l' :=
  List.filterMap_append
@[simp] theorem answers_nil : answers [] = [] := rfl
@[simp] theorem answers_started : answers (.started task :: l) = answers l := rfl
@[simp] theorem answers_finished : answers (.finished res :: l) = answers l := rfl
@[simp] theorem answers_sent : answers (.sent dest msg :: l) = (dest, msg) :: answers l := rfl

end Log

/-! ### One build -/

/-- A plan: the tasks, each with the result it gives when it is run. -/
abbrev Plan := List (Task × ProcessFinished)

def Plan.tasks (plan : Plan) : List Task := plan.map (·.1)

def Plan.results (plan : Plan) : List ProcessFinished := plan.map (·.2)

/-- The results up to and including the first failure. -/
def upToFailure : List ProcessFinished → List ProcessFinished
  | [] => []
  | res :: rs => if res.exitCode = 0 then res :: upToFailure rs else [res]

/-- The worker has one `Build` of a client in its mailbox. -/
def asked (plan : Plan) (c : ℕ) : Site := step (init plan.tasks) (.ask c)

/-- What can happen during the build: the worker handles a message, or a running task finishes with
the result of the plan. -/
def Goes (plan : Plan) (s : Site) : Event → Prop
  | .ask _ => False
  | .finish k res => k < s.running.length ∧ plan.results[(results s.log).length]? = some res
  | .deliver => s.mailbox ≠ []

/-- All tasks started so far have finished, with exit code 0. -/
def MayStart (log : List Entry) : Prop :=
  (results log).length = (starts log).length ∧ ∀ res ∈ results log, res.exitCode = 0

instance (plan : Plan) (s : Site) : ∀ e, Decidable (Goes plan s e)
  | .ask _ => inferInstanceAs (Decidable False)
  | .finish _ _ => inferInstanceAs (Decidable (_ ∧ _))
  | .deliver => inferInstanceAs (Decidable (_ ≠ _))

/-- What the log of a build tells. -/
structure OneBuild (plan : Plan) (c : ℕ) (log : List Entry) : Prop where
  /-- tasks are started in the order of the list -/
  inOrder : starts log <+: plan.tasks
  /-- a task is started when all tasks before it have finished, with exit code 0 -/
  oneAtATime : EachEntry (fun pre e => ∀ task, e = .started task → MayStart pre) log
  /-- at most one message is sent, and it is for the requester -/
  oneAnswer : answers log = [] ∨ ∃ msg, answers log = [(.client c, msg)]

/-- What the log of a build tells when the build is over. -/
structure Over (plan : Plan) (c : ℕ) (log : List Entry) : Prop where
  /-- all tasks have succeeded -/
  succeeds : (∀ res ∈ plan.results, res.exitCode = 0) → starts log = plan.tasks ∧
    answers log = [(.client c, .buildSucceed plan.results.reverse)]
  /-- the first failure is the last task started -/
  fails : (∃ res ∈ plan.results, res.exitCode ≠ 0) →
    starts log = plan.tasks.take (upToFailure plan.results).length ∧
      answers log = [(.client c, .buildFailed (upToFailure plan.results).reverse)]

/-- The log of tasks started and finished one after another. -/
def logOf (done : Plan) : List Entry := done.flatMap fun p => [.started p.1, .finished p.2]

/-- The moments of a build, by the number of events so far: `done` are the tasks that have
succeeded, `rest` the others. -/
inductive Phase (plan : Plan) (c : ℕ) : ℕ → Site → Prop where
  /-- a `Build` waits, of the client or of the worker itself -/
  | asked (done rest : Plan) (ci : Option ActorRef) (sender : ActorRef)
      (hplan : plan = done ++ rest) (hzero : ∀ p ∈ done, p.2.exitCode = 0)
      (hreq : ci.getD sender = .client c) :
      Phase plan c (3 * done.length)
        ⟨⟨done.results.reverse, rest.tasks, ci⟩, [.build sender], [], logOf done⟩
  /-- a task runs -/
  | busy (done rest : Plan) (task : Task) (res : ProcessFinished)
      (hplan : plan = done ++ (task, res) :: rest) (hzero : ∀ p ∈ done, p.2.exitCode = 0) :
      Phase plan c (3 * done.length + 1)
        ⟨⟨done.results.reverse, rest.tasks, some (.client c)⟩, [], [task],
          logOf done ++ [.started task]⟩
  /-- its result waits -/
  | finished (done rest : Plan) (task : Task) (res : ProcessFinished)
      (hplan : plan = done ++ (task, res) :: rest) (hzero : ∀ p ∈ done, p.2.exitCode = 0) :
      Phase plan c (3 * done.length + 2)
        ⟨⟨done.results.reverse, rest.tasks, some (.client c)⟩, [.processFinished res], [],
          logOf done ++ [.started task] ++ [.finished res]⟩
  | succeeded (w : State) (hzero : ∀ p ∈ plan, p.2.exitCode = 0) :
      Phase plan c (3 * plan.length + 1)
        ⟨w, [], [], logOf plan ++ [.sent (.client c) (.buildSucceed plan.results.reverse)]⟩
  | failed (w : State) (done rest : Plan) (task : Task) (res : ProcessFinished)
      (hplan : plan = done ++ (task, res) :: rest) (hzero : ∀ p ∈ done, p.2.exitCode = 0)
      (hres : res.exitCode ≠ 0) :
      Phase plan c (3 * done.length + 3)
        ⟨w, [], [], logOf done ++ [.started task] ++ [.finished res] ++
          [.sent (.client c) (.buildFailed (res :: done.results.reverse))]⟩

section OneBuild

variable {plan done rest : Plan} {c n : ℕ} {s : Site} {e : Event}

theorem logOf_concat (done : Plan) (p : Task × ProcessFinished) :
    logOf (done ++ [p]) = logOf done ++ [.started p.1] ++ [.finished p.2] := by
  simp [logOf]

@[simp] theorem starts_logOf (done : Plan) : starts (logOf done) = done.tasks := by
  induction done using List.reverseRecOn with
  | nil => rfl
  | append_singleton done p ih => rw [logOf_concat]; simp [ih, Plan.tasks]

@[simp] theorem results_logOf (done : Plan) : results (logOf done) = done.results := by
  induction done using List.reverseRecOn with
  | nil => rfl
  | append_singleton done p ih => rw [logOf_concat]; simp [ih, Plan.results]

@[simp] theorem answers_logOf (done : Plan) : answers (logOf done) = [] := by
  induction done using List.reverseRecOn with
  | nil => rfl
  | append_singleton done p ih => rw [logOf_concat]; simp [ih]

/-- **One event of a build** leads to its next moment. -/
theorem Phase.step (h : Phase plan c n s) (he : Goes plan s e) :
    Phase plan c (n + 1) (step s e) := by
  cases h with
  | asked done rest ci sender hplan hzero hreq =>
    cases e with
    | ask _ => exact he.elim
    | finish k res => exact absurd he.1 (Nat.not_lt_zero k)
    | deliver =>
      rcases rest with _ | ⟨⟨task, res⟩, rest⟩
      · have hd : plan = done := by rw [hplan, List.append_nil]
        subst hd
        have h := Phase.succeeded (c := c) ⟨plan.results.reverse, [], ci⟩ hzero
        simpa [Worker.step, waiting, perform, State.requester, Plan.tasks, hreq] using h
      · have h := Phase.busy (c := c) done rest task res hplan hzero
        simpa [Worker.step, waiting, perform, State.requester, Plan.tasks, hreq] using h
  | busy done rest task res hplan hzero =>
    cases e with
    | ask _ => exact he.elim
    | finish k res' =>
      obtain ⟨hk, hres⟩ := he
      have hk0 : k = 0 := by simpa using hk
      have hr : res' = res := by
        simpa [hplan, Plan.results, eq_comm] using hres
      subst hk0 hr
      exact Phase.finished done rest task res' hplan hzero
    | deliver => exact absurd rfl he
  | finished done rest task res hplan hzero =>
    cases e with
    | ask _ => exact he.elim
    | finish k res => exact absurd he.1 (Nat.not_lt_zero k)
    | deliver =>
      by_cases hz : res.exitCode = 0
      · have hplan' : plan = (done ++ [(task, res)]) ++ rest := by simp [hplan]
        have hzero' : ∀ p ∈ done ++ [(task, res)], p.2.exitCode = 0 := by
          intro p hp
          rcases List.mem_append.mp hp with hp | hp
          · exact hzero p hp
          · rw [List.mem_singleton.mp hp]; exact hz
        have h := Phase.asked (c := c) _ rest (some (.client c)) .self hplan' hzero' rfl
        have hlen : 3 * done.length + 2 + 1 = 3 * (done ++ [(task, res)]).length := by
          rw [List.length_append]; simp; omega
        rw [hlen]
        simpa [Worker.step, waiting, perform, hz, logOf_concat, Plan.results] using h
      · have h := Phase.failed (c := c) ⟨done.results.reverse, rest.tasks,
          some (.client c)⟩ done rest
          task res hplan hzero hz
        simpa [Worker.step, waiting, perform, hz] using h
  | succeeded w hzero =>
    cases e with
    | ask _ => exact he.elim
    | finish k res => exact absurd he.1 (Nat.not_lt_zero k)
    | deliver => exact absurd rfl he
  | failed w done rest task res hplan hzero hres =>
    cases e with
    | ask _ => exact he.elim
    | finish k res => exact absurd he.1 (Nat.not_lt_zero k)
    | deliver => exact absurd rfl he

theorem phase_asked (plan : Plan) (c : ℕ) : Phase plan c 0 (asked plan c) :=
  Phase.asked [] plan none (.client c) rfl (by simp) rfl

theorem phase_after {es : List Event} (h : Meets step (Goes plan) (asked plan c) es) :
    Phase plan c es.length (run step (asked plan c) es) := by
  induction es using List.reverseRecOn with
  | nil => exact phase_asked plan c
  | append_singleton es e ih =>
    obtain ⟨hes, he⟩ := (meets_concat es e _).mp h
    rw [run_concat, List.length_append]
    exact (ih hes).step he

/-! ### The log of a build -/

theorem mem_results {res : ProcessFinished} (hzero : ∀ p ∈ done, p.2.exitCode = 0)
    (h : res ∈ done.results) : res.exitCode = 0 := by
  obtain ⟨p, hp, rfl⟩ := List.mem_map.mp h
  exact hzero p hp

theorem mayStart_logOf (hzero : ∀ p ∈ done, p.2.exitCode = 0) : MayStart (logOf done) := by
  refine ⟨by simp [Plan.results, Plan.tasks], fun res hres => ?_⟩
  rw [results_logOf] at hres
  exact mem_results hzero hres

theorem oneAtATime_logOf (hzero : ∀ p ∈ done, p.2.exitCode = 0) :
    EachEntry (fun pre e => ∀ task, e = .started task → MayStart pre) (logOf done) := by
  induction done using List.reverseRecOn with
  | nil => exact eachEntry_nil
  | append_singleton done p ih =>
    have hdone : ∀ q ∈ done, q.2.exitCode = 0 := fun q hq => hzero q (List.mem_append_left _ hq)
    rw [logOf_concat, eachEntry_concat, eachEntry_concat]
    exact ⟨⟨ih hdone, fun _ _ => mayStart_logOf hdone⟩, fun _ h => by cases h⟩

theorem upToFailure_append (rs : List ProcessFinished) {res : ProcessFinished}
    (hzero : ∀ p ∈ done, p.2.exitCode = 0) (hres : res.exitCode ≠ 0) :
    upToFailure (done.results ++ res :: rs) = done.results ++ [res] := by
  induction done with
  | nil => simp [Plan.results, upToFailure, hres]
  | cons p done ih =>
    have hp : p.2.exitCode = 0 := hzero p (by simp)
    have ih := ih fun q hq => hzero q (List.mem_cons_of_mem _ hq)
    simp only [Plan.results] at ih
    simp [Plan.results, upToFailure, hp, ih]

/-- The log so far, at any moment of a build. -/
theorem Phase.oneBuild (h : Phase plan c n s) : OneBuild plan c s.log := by
  cases h with
  | asked done rest ci sender hplan hzero hreq =>
    refine ⟨?_, oneAtATime_logOf hzero, Or.inl (by simp)⟩
    simp [hplan, Plan.tasks]
  | busy done rest task res hplan hzero =>
    refine ⟨?_, ?_, Or.inl (by simp)⟩
    · simp [hplan, Plan.tasks]
    · rw [eachEntry_concat]
      exact ⟨oneAtATime_logOf hzero, fun _ _ => mayStart_logOf hzero⟩
  | finished done rest task res hplan hzero =>
    refine ⟨?_, ?_, Or.inl (by simp)⟩
    · simp [hplan, Plan.tasks]
    · rw [eachEntry_concat, eachEntry_concat]
      exact ⟨⟨oneAtATime_logOf hzero, fun _ _ => mayStart_logOf hzero⟩, fun _ h => by cases h⟩
  | succeeded w hzero =>
    refine ⟨?_, ?_, Or.inr ⟨.buildSucceed plan.results.reverse, by simp⟩⟩
    · simp
    · rw [eachEntry_concat]
      exact ⟨oneAtATime_logOf hzero, fun _ h => by cases h⟩
  | failed w done rest task res hplan hzero hres =>
    refine ⟨?_, ?_, Or.inr ⟨.buildFailed (res :: done.results.reverse), by simp⟩⟩
    · simp [hplan, Plan.tasks]
    · rw [eachEntry_concat, eachEntry_concat, eachEntry_concat]
      exact ⟨⟨⟨oneAtATime_logOf hzero, fun _ _ => mayStart_logOf hzero⟩, fun _ h => by cases h⟩,
        fun _ h => by cases h⟩

theorem Phase.le (h : Phase plan c n s) : n ≤ 3 * plan.length + 1 := by
  cases h with
  | asked done rest ci sender hplan hzero hreq => rw [hplan, List.length_append]; omega
  | busy done rest task res hplan hzero =>
    rw [hplan, List.length_append, List.length_cons]; omega
  | finished done rest task res hplan hzero =>
    rw [hplan, List.length_append, List.length_cons]; omega
  | succeeded w hzero => exact le_rfl
  | failed w done rest task res hplan hzero hres =>
    rw [hplan, List.length_append, List.length_cons]; omega

/-- The log of a build that cannot go on. -/
theorem Phase.over (h : Phase plan c n s) (hstop : ∀ e, ¬ Goes plan s e) : Over plan c s.log := by
  cases h with
  | asked done rest ci sender hplan hzero hreq =>
    exact absurd (List.cons_ne_nil _ _) (hstop .deliver)
  | busy done rest task res hplan hzero =>
    refine absurd ⟨Nat.one_pos, ?_⟩ (hstop (.finish 0 res))
    simp [hplan, Plan.results]
  | finished done rest task res hplan hzero =>
    exact absurd (List.cons_ne_nil _ _) (hstop .deliver)
  | succeeded w hzero =>
    refine ⟨fun _ => ⟨by simp, by simp⟩, ?_⟩
    rintro ⟨res, hres, hne⟩
    exact absurd (mem_results hzero hres) hne
  | failed w done rest task res hplan hzero hres =>
    have hup : upToFailure plan.results = done.results ++ [res] := by
      have h := upToFailure_append rest.results hzero hres
      rw [hplan]
      simpa [Plan.results] using h
    refine ⟨fun hall => absurd (hall res ?_) hres, fun _ => ⟨?_, ?_⟩⟩
    · simp [hplan, Plan.results]
    · have htasks : plan.tasks = (done.tasks ++ [task]) ++ rest.tasks := by
        simp [hplan, Plan.tasks]
      rw [hup, htasks, List.take_left' (by simp [Plan.tasks, Plan.results])]
      simp
    · rw [hup]; simp

/-- **One build.** Asked for once, with every task answered by its result, the worker starts the
tasks in order and one at a time and sends the requester at most one message; it stops after at most
`3 n + 1` events, and has then told the requester the outcome: all results in reverse order if all
tasks succeed, and otherwise the results up to the first failure, with no task started after it. -/
theorem oneBuild_after (plan : Plan) (c : ℕ) (es : List Event)
    (h : Meets step (Goes plan) (asked plan c) es) :
    OneBuild plan c (run step (asked plan c) es).log ∧ es.length ≤ 3 * plan.length + 1 ∧
      ((∀ e, ¬ Goes plan (run step (asked plan c) es) e) →
        Over plan c (run step (asked plan c) es).log) :=
  have hp := phase_after h
  ⟨hp.oneBuild, hp.le, hp.over⟩

/-- The second of three tasks fails. -/
def secondFails : Plan :=
  [(.clean, ⟨0, "", ""⟩), (.update, ⟨1, "", "no network"⟩), (.test, ⟨0, "", ""⟩)]

def secondFailsEvents : List Event :=
  [.deliver, .finish 0 ⟨0, "", ""⟩, .deliver, .deliver, .finish 0 ⟨1, "", "no network"⟩, .deliver]

theorem oneBuild_secondFails :
    Meets step (Goes secondFails) (asked secondFails 7) secondFailsEvents ∧
      Over secondFails 7 (run step (asked secondFails 7) secondFailsEvents).log := by
  have h : Meets step (Goes secondFails) (asked secondFails 7) secondFailsEvents := by decide
  refine ⟨h, (oneBuild_after _ _ _ h).2.2 fun e he => ?_⟩
  cases e with
  | ask _ => exact he
  | finish k res => exact absurd he.1 (Nat.not_lt_zero k)
  | deliver => exact he rfl

end OneBuild

end ServeD.Ci.Worker
