import ServeD.Ci.Worker

/-! # The CI worker and several clients

With any number of clients the worker takes a client's `Build` for its own and starts the next task,
or reports success, whatever the tasks already started are doing. `Law` is what a build promises: a
task is started only when all tasks before it have finished, with exit code 0, and success is
reported only when all tasks have finished so, with all their results.

The law holds along every run in which the worker takes a client's `Build` only when nothing of the
build is under way (`FreeToAsk`): then there is at most one thing to wait for, a running task, its
result or the worker's own `Build` (`Stage`). A `Build` taken at any other moment can break the law
(`breaks_of_not_freeToAsk`). -/

namespace ServeD.Ci.Clients

open ServeD.Lib.Runs ServeD.Ci.Worker

/-- The entry may follow the entries `pre`. -/
def Allowed (tasks : List Task) (pre : List Entry) : Entry → Prop
  | .started _ => MayStart pre
  | .finished _ => True
  | .sent _ (.buildSucceed history) =>
    starts pre = tasks ∧ MayStart pre ∧ history.Perm (results pre)
  | .sent _ (.buildFailed _) => True

/-- What a build promises of its log. -/
def Law (tasks : List Task) (log : List Entry) : Prop := EachEntry (Allowed tasks) log

/-- Nothing of the build is under way: no task runs, no result waits, no task has failed, and the
worker is not about to start a task of its own accord. -/
def FreeToAsk (s : Site) : Prop :=
  s.running = [] ∧ (∀ res, .processFinished res ∉ s.mailbox) ∧
    (∀ res ∈ results s.log, res.exitCode = 0) ∧ (s.worker.tasks = [] ∨ .build .self ∉ s.mailbox)

/-- The worker takes a `Build` of a client only when it is free to. -/
def AsksInTurn (s : Site) : Event → Prop
  | .ask _ => True
  | .finish _ _ => True
  | .deliver => ∀ c rest, s.mailbox = .build (.client c) :: rest → FreeToAsk s

/-- The message is not a client's. -/
def isOwn : Msg → Bool
  | .build (.client _) => false
  | .build .self => true
  | .processFinished _ => true

/-- The messages that do not come from clients. -/
def own (mailbox : List Msg) : List Msg := mailbox.filter isOwn

@[simp] theorem own_append (l l' : List Msg) : own (l ++ l') = own l ++ own l' :=
  List.filter_append _ _

@[simp] theorem own_nil : own [] = [] := rfl
@[simp] theorem own_client (c : ℕ) (l : List Msg) : own (.build (.client c) :: l) = own l := rfl
@[simp] theorem own_self (l : List Msg) : own (.build .self :: l) = .build .self :: own l := rfl
@[simp] theorem own_processFinished (res : ProcessFinished) (l : List Msg) :
    own (.processFinished res :: l) = .processFinished res :: own l := rfl

theorem mem_own {m : Msg} {l : List Msg} : m ∈ own l ↔ m ∈ l ∧ isOwn m = true := List.mem_filter

/-- The stages of a build: the running tasks, the messages that wait, the results so far and the
history the worker keeps. -/
inductive Stage : List Task → List Msg → List ProcessFinished → List ProcessFinished → Prop where
  | idle (h : List ProcessFinished) (hz : ∀ res ∈ h, res.exitCode = 0) : Stage [] [] h.reverse h
  | busy (task : Task) (h : List ProcessFinished) (hz : ∀ res ∈ h, res.exitCode = 0) :
      Stage [task] [] h.reverse h
  | finished (res : ProcessFinished) (h : List ProcessFinished) (hz : ∀ res ∈ h, res.exitCode = 0) :
      Stage [] [.processFinished res] (h.reverse ++ [res]) h
  | goOn (h : List ProcessFinished) (hz : ∀ res ∈ h, res.exitCode = 0) :
      Stage [] [.build .self] h.reverse h
  | failed (rs h : List ProcessFinished) (hf : ∃ res ∈ rs, res.exitCode ≠ 0) : Stage [] [] rs h

namespace Stage

variable {r : List Task} {o : List Msg} {rs h : List ProcessFinished}

theorem of_processFinished {res : ProcessFinished} (hs : Stage r (.processFinished res :: o) rs h) :
    r = [] ∧ o = [] ∧ rs = h.reverse ++ [res] ∧ ∀ res ∈ h, res.exitCode = 0 := by
  cases hs with
  | finished _ _ hz => exact ⟨rfl, rfl, rfl, hz⟩

theorem of_self (hs : Stage r (.build .self :: o) rs h) :
    r = [] ∧ o = [] ∧ rs = h.reverse ∧ ∀ res ∈ h, res.exitCode = 0 := by
  cases hs with
  | goOn _ hz => exact ⟨rfl, rfl, rfl, hz⟩

/-- Nothing runs, no result waits and no task has failed. -/
theorem of_free (hs : Stage r o rs h) (hr : r = []) (ho : ∀ res, .processFinished res ∉ o)
    (hrs : ∀ res ∈ rs, res.exitCode = 0) :
    (o = [] ∨ o = [.build .self]) ∧ rs = h.reverse ∧ ∀ res ∈ h, res.exitCode = 0 := by
  cases hs with
  | idle _ hz => exact ⟨.inl rfl, rfl, hz⟩
  | busy => cases hr
  | finished res => exact absurd (List.mem_singleton.mpr rfl) (ho res)
  | goOn _ hz => exact ⟨.inr rfl, rfl, hz⟩
  | failed _ _ hf =>
    obtain ⟨res, hres, hne⟩ := hf
    exact absurd (hrs res hres) hne

/-- Only one task runs, and it finishes. -/
theorem finish (hs : Stage r o rs h) {k : ℕ} (hk : k < r.length) (res : ProcessFinished) :
    Stage (r.eraseIdx k) (o ++ [.processFinished res]) (rs ++ [res]) h := by
  cases hs with
  | busy task _ hz =>
    have hk0 : k = 0 := by simpa using hk
    subst hk0
    exact .finished res _ hz
  | _ => exact absurd hk (Nat.not_lt_zero k)

end Stage

/-- What holds along a run in which clients ask in turn. -/
structure Steady (tasks : List Task) (s : Site) : Prop where
  law : Law tasks s.log
  split : starts s.log ++ s.worker.tasks = tasks
  counted : (starts s.log).length = (results s.log).length + s.running.length
  stage : Stage s.running (own s.mailbox) (results s.log) s.worker.history

section Steady

variable {tasks : List Task} {s : Site}

theorem steady_init (tasks : List Task) : Steady tasks (init tasks) where
  law := eachEntry_nil
  split := rfl
  counted := rfl
  stage := .idle [] (by simp)

/-- The worker goes on when nothing is under way. -/
theorem Steady.build (h : Steady tasks s) (hrun : s.running = [])
    (hres : results s.log = s.worker.history.reverse) (hz : ∀ res ∈ s.worker.history,
      res.exitCode = 0)
    {x : ActorRef} {rest : List Msg} (hm : s.mailbox = .build x :: rest)
    (hown : own rest = [] ∨ s.worker.tasks = [] ∧ own rest = [.build .self]) :
    Steady tasks (step s .deliver) := by
  obtain ⟨hlaw, hsplit, hcount, -⟩ := h
  have hmay : MayStart s.log := by
    refine ⟨by rw [hcount, hrun]; rfl, fun res hr => hz res ?_⟩
    rw [hres] at hr
    exact List.mem_reverse.mp hr
  rcases ht : s.worker.tasks with _ | ⟨task, ts⟩
  · have hstart : starts s.log = tasks := by rw [← hsplit, ht, List.append_nil]
    have hallowed : Allowed tasks s.log (.sent (s.worker.requester x)
      (.buildSucceed s.worker.history)) :=
      ⟨hstart, hmay, by rw [hres]; exact (List.reverse_perm _).symm⟩
    have hstep : step s .deliver = { s with
        mailbox := rest
        log := s.log ++ [.sent (s.worker.requester x) (.buildSucceed s.worker.history)] } := by
      simp [step, hm, waiting, ht, perform]
    rw [hstep]
    refine ⟨eachEntry_concat.mpr ⟨hlaw, hallowed⟩, by simpa using hsplit, by simpa using hcount, ?_⟩
    simp only [results_append, results_sent, results_nil, List.append_nil]
    rw [hrun, hres]
    rcases hown with ho | ⟨-, ho⟩
    · rw [ho]; exact .idle _ hz
    · rw [ho]; exact .goOn _ hz
  · have hown' : own rest = [] := by
      rcases hown with ho | ⟨ht', -⟩
      · exact ho
      · rw [ht] at ht'; cases ht'
    have hstep : step s .deliver =
        ⟨⟨s.worker.history, ts, some (s.worker.requester x)⟩, rest, [task],
          s.log ++ [.started task]⟩ := by
      simp [step, hm, waiting, ht, perform, hrun]
    rw [hstep]
    refine ⟨eachEntry_concat.mpr ⟨hlaw, hmay⟩, ?_, ?_, ?_⟩
    · rw [← hsplit, ht]; simp
    · rw [hrun] at hcount; simpa using hcount
    · simp only [results_append, results_started, results_nil, List.append_nil]
      rw [hown', hres]
      exact .busy task _ hz

/-- The worker takes the result of its task. -/
theorem Steady.processFinished (h : Steady tasks s) {res : ProcessFinished} {rest : List Msg}
    (hm : s.mailbox = .processFinished res :: rest) : Steady tasks (step s .deliver) := by
  obtain ⟨hlaw, hsplit, hcount, hstage⟩ := h
  rw [hm, own_processFinished] at hstage
  obtain ⟨hrun, hown, hres, hz⟩ := hstage.of_processFinished
  by_cases hr : res.exitCode = 0
  · have hstep : step s .deliver = { s with
        worker := { s.worker with history := res :: s.worker.history }
        mailbox := rest ++ [.build .self] } := by
      simp [step, hm, waiting, hr, perform]
    rw [hstep]
    refine ⟨hlaw, hsplit, hcount, ?_⟩
    simp only [own_append, hown, own_self, own_nil, List.nil_append, hrun, hres]
    rw [← List.reverse_cons]
    refine .goOn _ fun r hrm => ?_
    rcases List.mem_cons.mp hrm with rfl | hrm
    · exact hr
    · exact hz r hrm
  · have hstep : step s .deliver = { s with
        mailbox := rest
        log := s.log ++ s.worker.ci.toList.map fun ci =>
          .sent ci (.buildFailed (res :: s.worker.history)) } := by
      rcases hci : s.worker.ci with _ | ci
      · simp [step, hm, waiting, hr, hci]
      · simp [step, hm, waiting, hr, hci, perform]
    rw [hstep]
    have hfail : ∃ r ∈ results s.log, r.exitCode ≠ 0 := ⟨res, by rw [hres]; simp, hr⟩
    rcases s.worker.ci with _ | ci
    · refine ⟨by simpa using hlaw, by simpa using hsplit, by simpa using hcount, ?_⟩
      simp only [Option.toList_none, List.map_nil, List.append_nil]
      rw [hrun, hown]
      exact .failed _ _ hfail
    · refine ⟨eachEntry_concat.mpr ⟨hlaw, trivial⟩, by simpa using hsplit, by simpa using hcount,
        ?_⟩
      simp only [Option.toList_some, List.map_cons, List.map_nil, results_append, results_sent,
        results_nil, List.append_nil]
      rw [hrun, hown]
      exact .failed _ _ hfail

/-- **One event** of a run in which clients ask in turn. -/
theorem Steady.step (h : Steady tasks s) {e : Event} (he : AsksInTurn s e) :
    Steady tasks (step s e) := by
  cases e with
  | ask c =>
    refine ⟨h.law, h.split, h.counted, ?_⟩
    simpa [Worker.step] using h.stage
  | finish k res =>
    by_cases hk : k < s.running.length
    · obtain ⟨hlaw, hsplit, hcount, hstage⟩ := h
      have hstep : Worker.step s (.finish k res) = { s with
          mailbox := s.mailbox ++ [.processFinished res]
          running := s.running.eraseIdx k
          log := s.log ++ [.finished res] } := if_pos hk
      rw [hstep]
      refine ⟨eachEntry_concat.mpr ⟨hlaw, trivial⟩, by simpa using hsplit, ?_, ?_⟩
      · simp only [starts_append, starts_finished, starts_nil, List.append_nil, results_append,
          results_finished, results_nil, List.length_append, List.length_singleton,
          List.length_eraseIdx_of_lt hk]
        omega
      · simpa using hstage.finish hk res
    · have hstep : Worker.step s (.finish k res) = s := if_neg hk
      rw [hstep]; exact h
  | deliver =>
    rcases hm : s.mailbox with _ | ⟨m, rest⟩
    · have hstep : Worker.step s .deliver = s := by simp [Worker.step, hm]
      rw [hstep]; exact h
    · have hstage := h.stage
      rw [hm] at hstage
      rcases m with (_ | c) | res
      · -- its own `Build`
        rw [own_self] at hstage
        obtain ⟨hr, ho, hrs, hz⟩ := hstage.of_self
        exact h.build hr hrs hz hm (.inl ho)
      · -- a client's
        obtain ⟨hr, hpf, hfine, hgo⟩ := he c rest hm
        rw [own_client] at hstage
        have hmem : ∀ m ∈ own rest, m ∈ s.mailbox := fun m hmo =>
          hm ▸ List.mem_cons_of_mem _ (mem_own.mp hmo).1
        obtain ⟨ho, hrs, hz⟩ := hstage.of_free hr (fun res hmo => hpf res (hmem _ hmo)) hfine
        refine h.build hr hrs hz hm (ho.imp_right fun ho => ⟨?_, ho⟩)
        exact hgo.resolve_right fun hn => hn (hmem _ (by rw [ho]; simp))
      · exact h.processFinished hm

/-- Along every run in which clients ask in turn. -/
theorem steady_after {es : List Event} (h : Meets Worker.step AsksInTurn (init tasks) es) :
    Steady tasks (run Worker.step (init tasks) es) :=
  Meets.invariant (fun _ _ hs he => hs.step he) h (steady_init tasks)

end Steady

/-! ### A `Build` at another moment -/

section Breaks

variable {tasks : List Task} {s : Site} {x : ActorRef} {rest : List Msg}

/-- A `Build` starts a task or reports success, so it breaks the law unless a task may
be started. -/
theorem not_law_build (hm : s.mailbox = .build x :: rest) (hmay : ¬ MayStart s.log) :
    ¬ Law tasks (step s .deliver).log := by
  intro hlaw
  rcases ht : s.worker.tasks with _ | ⟨task, ts⟩
  · have hlog : (step s .deliver).log =
        s.log ++ [.sent (s.worker.requester x) (.buildSucceed s.worker.history)] := by
      simp [step, hm, waiting, ht, perform]
    rw [hlog, Law, eachEntry_concat] at hlaw
    exact hmay hlaw.2.2.1
  · have hlog : (step s .deliver).log = s.log ++ [.started task] := by
      simp [step, hm, waiting, ht, perform]
    rw [hlog, Law, eachEntry_concat] at hlaw
    exact hmay hlaw.2

theorem exists_client_of_own {m : Msg} {l : List Msg} (h : own (m :: l) = []) :
    ∃ c, m = .build (.client c) := by
  rcases m with (_ | c) | res
  · cases h
  · exact ⟨c, rfl⟩
  · cases h

/-- A task is running, and the mailbox has a result to handle or another `Build`: the next `Build`
breaks the law. -/
theorem breaks_of_running (tasks : List Task) (hmay : ¬ MayStart s.log) {o : Msg}
    (ho : own s.mailbox = [o]) (hres : ∀ res, o = .processFinished res → res.exitCode = 0) :
    ∃ n, ¬ Law tasks (run step s (List.replicate n .deliver)).log := by
  rcases hm : s.mailbox with _ | ⟨m, rest⟩
  · rw [hm] at ho; cases ho
  · rcases m with x | res
    · exact ⟨1, not_law_build hm hmay⟩
    · -- the result brings the worker's own `Build`
      rw [hm, own_processFinished, List.cons.injEq] at ho
      have hz := hres res ho.1.symm
      have hstep : step s .deliver = { s with
          worker := { s.worker with history := res :: s.worker.history }
          mailbox := rest ++ [.build .self] } := by
        simp [step, hm, waiting, hz, perform]
      obtain ⟨y, rest', hm'⟩ : ∃ y rest', (step s .deliver).mailbox = .build y :: rest' := by
        rw [hstep]
        rcases rest with _ | ⟨m, rest⟩
        · exact ⟨.self, [], rfl⟩
        · obtain ⟨c, rfl⟩ := exists_client_of_own ho.2
          exact ⟨.client c, rest ++ [.build .self], rfl⟩
      have hmay' : ¬ MayStart (step s .deliver).log := by rw [hstep]; exact hmay
      exact ⟨2, not_law_build hm' hmay'⟩

theorem running_of_mayStart (h : Steady tasks s) (hmay : MayStart s.log) : s.running = [] := by
  have h1 := h.counted
  rw [hmay.1] at h1
  exact List.eq_nil_of_length_eq_zero (by omega)

/-- If nothing runs, a result or the worker's own `Build` is what keeps the worker from
being free. -/
theorem waits_of_not_freeToAsk (h : Steady tasks s) {c : ℕ}
    (hm : s.mailbox = .build (.client c) :: rest) (hmay : MayStart s.log) (hn : ¬ FreeToAsk s) :
    ∃ o, own rest = [o] := by
  have hrun := running_of_mayStart h hmay
  have hstage := h.stage
  rw [hm, own_client] at hstage
  generalize hr : own rest = l at hstage
  generalize s.running = r at hstage
  generalize results s.log = rs at hstage
  generalize s.worker.history = hist at hstage
  cases hstage with
  | finished res => exact ⟨_, rfl⟩
  | goOn => exact ⟨_, rfl⟩
  | _ =>
    refine absurd ⟨hrun, fun res hres => ?_, hmay.2, .inr fun hself => ?_⟩ hn
    · have hmem : .processFinished res ∈ own rest := mem_own.mpr ⟨by simpa [hm] using hres, rfl⟩
      rw [hr] at hmem; cases hmem
    · have hmem : .build .self ∈ own rest := mem_own.mpr ⟨by simpa [hm] using hself, rfl⟩
      rw [hr] at hmem; cases hmem

/-- All tasks are started, and the last result is not in the history that is answered. -/
theorem not_law_answer (h : Steady tasks s) {c : ℕ} (hm : s.mailbox = .build (.client c) :: rest)
    {res : ProcessFinished} (ho : own rest = [.processFinished res]) (ht : s.worker.tasks = []) :
    ¬ Law tasks (step s .deliver).log := by
  intro hlaw
  have hstage := h.stage
  rw [hm, own_client, ho] at hstage
  have hres := hstage.of_processFinished.2.2.1
  have hlog : (step s .deliver).log =
      s.log ++ [.sent (s.worker.requester (.client c)) (.buildSucceed s.worker.history)] := by
    simp [step, hm, waiting, ht, perform]
  rw [hlog, Law, eachEntry_concat] at hlaw
  have hlen := hlaw.2.2.2.length_eq
  rw [hres] at hlen
  simp at hlen

/-- The next task is started, and then what else waits is handled. -/
theorem breaks_of_start (h : Steady tasks s) {c : ℕ} (hm : s.mailbox = .build (.client c) :: rest)
    (hmay : MayStart s.log) {o : Msg} (ho : own rest = [o]) {task : Task} {ts : List Task}
    (ht : s.worker.tasks = task :: ts) :
    ∃ n, ¬ Law tasks (run step s (List.replicate n .deliver)).log := by
  have hzero : ∀ res, o = .processFinished res → res.exitCode = 0 := by
    rintro res rfl
    have hstage := h.stage
    rw [hm, own_client, ho] at hstage
    have hres := hstage.of_processFinished.2.2.1
    exact hmay.2 res (by rw [hres]; simp)
  have hstep : step s .deliver = ⟨⟨s.worker.history, ts, some (s.worker.requester (.client c))⟩,
      rest, [task], s.log ++ [.started task]⟩ := by
    simp [step, hm, waiting, ht, perform, running_of_mayStart h hmay]
  have hmay' : ¬ MayStart (step s .deliver).log := by
    rintro ⟨hlen, -⟩
    rw [hstep] at hlen
    have h1 := hmay.1
    simp at hlen
    omega
  have ho' : own (step s .deliver).mailbox = [o] := by rw [hstep]; exact ho
  obtain ⟨n, hbreak⟩ := breaks_of_running tasks hmay' ho' hzero
  exact ⟨n + 1, hbreak⟩

/-- **A client's `Build` taken when the worker is not free to** breaks the law, or leaves a mailbox
whose messages do. -/
theorem breaks_of_not_freeToAsk (h : Steady tasks s) {c : ℕ}
    (hm : s.mailbox = .build (.client c) :: rest) (hn : ¬ FreeToAsk s) :
    ∃ n, ¬ Law tasks (run step s (List.replicate n .deliver)).log := by
  by_cases hmay : MayStart s.log
  · obtain ⟨o, ho⟩ := waits_of_not_freeToAsk h hm hmay hn
    rcases ht : s.worker.tasks with _ | ⟨task, ts⟩
    · obtain ⟨res, rfl⟩ : ∃ res, o = .processFinished res := by
        by_contra hno
        refine hn ⟨running_of_mayStart h hmay, fun res hres => hno ⟨res, ?_⟩, hmay.2, .inl ht⟩
        have hmem : .processFinished res ∈ own rest := mem_own.mpr ⟨by simpa [hm] using hres, rfl⟩
        rw [ho] at hmem
        exact (List.mem_singleton.mp hmem).symm
      exact ⟨1, not_law_answer h hm ho ht⟩
    · exact breaks_of_start h hm hmay ho ht
  · exact ⟨1, not_law_build hm hmay⟩

end Breaks

/-! ### The law -/

/-- **The law holds along every run in which the worker takes clients' `Build`s only when it is free
to.** If after such a run it takes one at another moment, the messages in its mailbox break the law.
-/
theorem law_after (tasks : List Task) (es : List Event)
    (h : Meets step AsksInTurn (init tasks) es) :
    Law tasks (run step (init tasks) es).log ∧
      ∀ c rest, (run step (init tasks) es).mailbox = .build (.client c) :: rest →
        ¬ FreeToAsk (run step (init tasks) es) →
        ∃ n, ¬ Law tasks (run step (init tasks) (es ++ List.replicate n .deliver)).log := by
  have hs := steady_after h
  refine ⟨hs.law, fun c rest hm hn => ?_⟩
  obtain ⟨n, hbreak⟩ := breaks_of_not_freeToAsk hs hm hn
  exact ⟨n, by rw [run_append]; exact hbreak⟩

/-- A second client asks when the build is over. -/
def oneAfterAnother : List Event :=
  [.ask 1, .deliver, .finish 0 ⟨0, "", ""⟩, .deliver, .deliver, .ask 2, .deliver]

/-- A second client asks while the first task runs. -/
def whileRunning : List Event := [.ask 1, .deliver, .ask 2, .deliver]

/-- Only a `Build` waits. -/
theorem freeToAsk_of_mailbox {s : Site} {c : ℕ} (hm : s.mailbox = [.build (.client c)])
    (hrun : s.running = []) (hz : ∀ res ∈ results s.log, res.exitCode = 0) : FreeToAsk s :=
  ⟨hrun, fun res hres => by simp [hm] at hres, hz, .inr (by simp [hm])⟩

theorem law_oneAfterAnother :
    Law [.test] (run step (init [.test]) oneAfterAnother).log ∧
      answers (run step (init [.test]) oneAfterAnother).log =
        [(.client 1, .buildSucceed [⟨0, "", ""⟩]), (.client 1, .buildSucceed [⟨0, "", ""⟩])] := by
  refine ⟨(law_after _ oneAfterAnother ?_).1, by decide⟩
  refine ⟨trivial, fun c rest hm => ?_, trivial, fun c rest hm => ?_, fun c rest hm => ?_, trivial,
    fun c rest hm => ?_, trivial⟩
  · exact freeToAsk_of_mailbox (c := 1) rfl rfl (by decide)
  · cases hm
  · cases hm
  · exact freeToAsk_of_mailbox (c := 2) rfl rfl (by decide)

/-- The second task is started beside the first. -/
theorem not_law_whileRunning :
    ¬ Law [.clean, .test] (run step (init [.clean, .test]) whileRunning).log := by
  intro h
  have h1 := h [.started .clean] (.started .test) [] (by decide)
  exact absurd h1.1 (by decide)

end ServeD.Ci.Clients
