import ServeD.Managers.GitDirectories

/-! # Restarts of the git manager

The git manager works on the database client of the account manager, and its `postStop` closes it.
`postStop` is also called when the manager is restarted, and a restart follows every exception that
leaves `receive`: so an exception takes the database from both managers, and the restarted manager
stops, because it cannot list its repositories. With `traceReceive` a message without a case is such
an exception. The database stays open exactly as long as every message has a case and JGit does not
raise (`staysOpen_iff`). -/

namespace ServeD.Managers.GitRestart

open ServeD.Lib.Runs ServeD.Lib.ImmutableSets ServeD.Lib.Directories ServeD.Api.Records
    ServeD.Api.Keys
open ServeD.Db.Client ServeD.Managers.Git
open ServeD.Managers.GitDirectories (records raises_createRepository)

variable {K : Type}

/-- `receive` has a case for the message. -/
def matched : Msg K → Bool
  | .updateRepositoryConfiguration _ => false
  | .repositoryDoesNotExistError => false
  | .repositories _ => false
  | .other => false
  | _ => true

/-- A message has a case, and JGit does not raise if it is called. -/
def Calm (a : Actor K) : Event K → Prop
  | .message msg out => a.stopped = false → matched msg = true ∧
      ∀ name, msg = .createRepository name → (∀ r ∈ records a.db, r.name ≠ name) →
      out.init = .returns
  | .stop => True

section Restart

variable [DecidableEq K] [HashCode K] [Neodatis (Repository K)] {loc : String} {a : Actor K}
  {msg : Msg K} {out : Outside}

/-- What an event may do to a manager at work: a message without a case is passed to `unhandled` and
changes nothing, and a message never closes the database. -/
structure Safe (loc : String) (a : Actor K) (e : Event K) : Prop where
  unhandled : ∀ msg out, e = .message msg out → a.stopped = false → matched msg = false →
    step loc a e = { a with reported := a.reported ++ [msg] }
  isOpen : e ≠ .stop → a.stopped = false → (step loc a e).isClosed = false

/-! ### One message -/

theorem handlers_isSome (loc : String) (out : Outside) (s : State K) (msg : Msg K) :
    (handlers loc out s msg).isSome = matched msg := by
  cases msg <;> rfl

theorem result_unmatched (loc : String) (out : Outside) (s : State K) (h : matched msg = false) :
    result loc out s msg = ⟨s, [], true⟩ := by
  have hnone : handlers loc out s msg = none := by
    rw [← Option.not_isSome_iff_eq_none, handlers_isSome, h]
    decide
  rw [result, hnone]
  rfl

omit [DecidableEq K] [HashCode K] [Neodatis (Repository K)] in
theorem raises_withRepo (s : State K) (u : UUID) (f : Repository K → State K × List (Reply K)) :
    (withRepo s u f).raises = false := by
  unfold withRepo
  rcases s.db.find u with _ | repo
  · rfl
  · rfl

/-- The exceptions on an open database. -/
theorem raises_result (h : a.isClosed = false) :
    (result loc out a.toState msg).raises = false ↔ matched msg = true ∧
      ∀ name, msg = .createRepository name → (∀ r ∈ records a.db, r.name ≠ name) →
        out.init = .returns := by
  have hother : (∀ name, msg ≠ .createRepository name) →
      ((result loc out a.toState msg).raises = false ↔ matched msg = true) →
      ((result loc out a.toState msg).raises = false ↔ matched msg = true ∧
        ∀ name, msg = .createRepository name → (∀ r ∈ records a.db, r.name ≠ name) →
          out.init = .returns) := by
    intro hne hiff
    rw [hiff]
    exact (and_iff_left fun name he => absurd he (hne name)).symm
  cases msg with
  | createRepository name =>
    have hr : result loc out a.toState (.createRepository name) =
        createRepository loc out a.toState name := query_open h _
    rw [hr, raises_createRepository]
    refine ⟨fun hret => ⟨rfl, fun name' he => ?_⟩, fun hret => hret.2 name rfl⟩
    cases he
    exact hret
  | listRepositories =>
    exact hother (by simp) (iff_of_true (congrArg Result.raises (query_open h _)) rfl)
  | getRepositoryByName name =>
    exact hother (by simp) (iff_of_true (congrArg Result.raises (query_open h _)) rfl)
  | getRepositoryByUUID u =>
    exact hother (by simp) (iff_of_true (congrArg Result.raises (query_open h _)) rfl)
  | removeRepository u =>
    refine hother (by simp) (iff_of_true ?_ rfl)
    exact (congrArg Result.raises (query_open h _)).trans (raises_withRepo _ u _)
  | addAuthorizedKey u key =>
    exact hother (by simp) (iff_of_true (result_keyMsg loc out h u (.add key)).1 rfl)
  | removeAuthorizedKey u key =>
    exact hother (by simp) (iff_of_true (result_keyMsg loc out h u (.remove key)).1 rfl)
  | repository repo => exact hother (by simp) (iff_of_true rfl rfl)
  | repositoryExistsError => exact hother (by simp) (iff_of_true rfl rfl)
  | _ =>
    refine hother (by simp) (iff_of_false ?_ (by simp [matched]))
    rw [result_unmatched loc out _ rfl]
    simp

section Closed

omit [DecidableEq K] [HashCode K] [Neodatis (Repository K)]

variable {s : State K}

theorem isClosed_query {r : Result K} (h : r.state.isClosed = s.isClosed) :
    (query s r).state.isClosed = s.isClosed := by
  unfold query
  split_ifs
  · rfl
  · exact h

theorem isClosed_withRepo {f : Repository K → State K × List (Reply K)} (u : UUID)
    (h : ∀ repo, (f repo).1.isClosed = s.isClosed) :
    (withRepo s u f).state.isClosed = s.isClosed := by
  unfold withRepo
  rcases s.db.find u with _ | repo
  · rfl
  · exact h repo.value

theorem isClosed_andReply (r : Result K) (reply : Reply K) :
    (r.andReply reply).state.isClosed = r.state.isClosed := by
  unfold Result.andReply
  split_ifs <;> rfl

end Closed

/-- No handler closes the database. -/
theorem isClosed_result (loc : String) (out : Outside) (s : State K) (msg : Msg K) :
    (result loc out s msg).state.isClosed = s.isClosed := by
  cases msg with
  | listRepositories => exact isClosed_query rfl
  | getRepositoryByName name => exact isClosed_query rfl
  | getRepositoryByUUID u => exact isClosed_query rfl
  | createRepository name =>
    refine isClosed_query ?_
    unfold createRepository
    split
    · rfl
    · dsimp only
      split_ifs <;> rfl
  | removeRepository u =>
    refine isClosed_query (isClosed_withRepo u fun repo => ?_)
    unfold removeRepository
    dsimp only
    split_ifs <;> rfl
  | addAuthorizedKey u key =>
    refine (isClosed_andReply _ _).trans (isClosed_query (isClosed_withRepo u fun repo => rfl))
  | removeAuthorizedKey u key =>
    refine (isClosed_andReply _ _).trans (isClosed_query (isClosed_withRepo u fun repo => rfl))
  | _ => rfl

/-- **A message leaves the manager at work exactly when it is calm**;
else it closes the database. -/
theorem step_calm (loc : String) (msg : Msg K) (out : Outside) (hs : a.stopped = false)
    (hc : a.isClosed = false) :
    (Calm a (.message msg out) ∧ (step loc a (.message msg out)).stopped = false ∧
      (step loc a (.message msg out)).isClosed = false) ∨
    (¬ Calm a (.message msg out) ∧ (step loc a (.message msg out)).stopped = true ∧
      (step loc a (.message msg out)).isClosed = true) := by
  have hcalm : Calm a (.message msg out) ↔ (result loc out a.toState msg).raises = false := by
    rw [raises_result hc]
    exact ⟨fun h => h hs, fun h _ => h⟩
  rw [hcalm, step_message hs]
  rcases hr : (result loc out a.toState msg).raises with _ | _
  · exact .inl ⟨rfl, hs, (isClosed_result loc out _ msg).trans hc⟩
  · rw [if_pos rfl, restart_eq]
    exact .inr ⟨by simp, rfl, rfl⟩

theorem stopped_step (h : a.stopped = true) (e : Event K) : (step loc a e).stopped = true := by
  cases e with
  | message msg out => simp only [step, h, if_true]
  | stop => rfl

/-- A stopped manager has no more to do. -/
theorem meets_calm_stopped : ∀ (evs : List (Event K)) {a : Actor K}, a.stopped = true →
    Meets (step loc) Calm a evs
  | [], _, _ => trivial
  | e :: evs, a, h => by
    refine ⟨?_, meets_calm_stopped evs (stopped_step h e)⟩
    cases e with
    | message msg out => exact fun hs => by rw [h] at hs; cases hs
    | stop => trivial

/-- As long as the manager is not stopped, its database is open. -/
def Up (a : Actor K) : Prop := a.stopped = false → a.isClosed = false

theorem up_step (hu : Up a) (e : Event K) : Up (step loc a e) := by
  intro hs
  rcases hst : a.stopped with _ | _
  · cases e with
    | message msg out =>
      rcases step_calm loc msg out hst (hu hst) with h | h
      · exact h.2.2
      · rw [h.2.1] at hs; cases hs
    | stop => cases hs
  · rw [stopped_step hst e] at hs; cases hs

theorem safe_iff_calm (hu : Up a) (e : Event K) : Safe loc a e ↔ Calm a e := by
  cases e with
  | stop => exact iff_of_true ⟨fun _ _ h => (by cases h), fun h => absurd rfl h⟩ trivial
  | message msg out =>
    constructor
    · intro h hs
      rcases step_calm loc msg out hs (hu hs) with h' | h'
      · exact h'.1 hs
      · have hopen := h.isOpen (by simp) hs
        rw [h'.2.2] at hopen; cases hopen
    · intro h
      refine ⟨fun msg' out' he hs hm => ?_, fun _ hs => ?_⟩
      · cases he
        rw [(h hs).1] at hm; cases hm
      · rcases step_calm loc msg out hs (hu hs) with h' | h'
        · exact h'.2.2
        · exact absurd h h'.1

/-- The database is open until the manager is finally stopped. -/
theorem open_iff_calm : ∀ (evs : List (Event K)) {a : Actor K}, a.stopped = false →
    a.isClosed = false →
    ((∀ pre, pre <+: evs → Event.stop ∉ pre → (run (step loc) a pre).isClosed = false) ↔
      Meets (step loc) Calm a evs)
  | [], a, _, hc => by
    refine iff_of_true (fun pre hp _ => ?_) trivial
    rw [List.prefix_nil.mp hp]; exact hc
  | .stop :: evs, a, _, hc => by
    refine iff_of_true (fun pre hp hstop => ?_) ⟨trivial, meets_calm_stopped evs rfl⟩
    rcases pre with _ | ⟨e, pre⟩
    · exact hc
    · obtain ⟨rfl, -⟩ := List.cons_prefix_cons.mp hp
      exact absurd (by simp) hstop
  | .message msg out :: evs, a, hs, hc => by
    rcases step_calm loc msg out hs hc with ⟨hcalm, hs', hc'⟩ | ⟨hno, -, hc'⟩
    · have ih := open_iff_calm evs hs' hc'
      rw [meets_cons, ← ih]
      constructor
      · intro h
        refine ⟨hcalm, fun pre hp hstop => ?_⟩
        exact h (.message msg out :: pre) (List.cons_prefix_cons.mpr ⟨rfl, hp⟩)
          (by simpa using hstop)
      · rintro ⟨-, h⟩ pre hp hstop
        rcases pre with _ | ⟨e, pre⟩
        · exact hc
        · obtain ⟨rfl, hp'⟩ := List.cons_prefix_cons.mp hp
          exact h pre hp' fun hm => hstop (List.mem_cons_of_mem _ hm)
    · refine iff_of_false (fun h => ?_) fun h => hno h.1
      have hopen := h [.message msg out] ⟨evs, rfl⟩ (by simp)
      rw [run_cons, run_nil, hc'] at hopen
      cases hopen

/-- **The database of the account stays open exactly as long as the messages are calm**: in every
run of messages of any kind, on any database and whatever JGit and the file system do. Then each
message does what it may, and before the manager is finally stopped both managers can use the
database. -/
theorem staysOpen_iff (loc : String) (db : DBClient (Repository K)) (dirs : List Path)
    (evs : List (Event K)) :
    (Meets (step loc) (Safe loc) (startOn loc db dirs) evs ↔
      Meets (step loc) Calm (startOn loc db dirs) evs) ∧
    ((∀ pre, pre <+: evs → Event.stop ∉ pre →
        (run (step loc) (startOn loc db dirs) pre).isClosed = false) ↔
      Meets (step loc) Calm (startOn loc db dirs) evs) := by
  constructor
  · refine meets_congr (P := Up) (E := fun _ _ => True) (fun a e hu _ => up_step hu e)
      (fun a e hu _ => safe_iff_calm hu e) (fun _ => rfl) ?_
    exact meets_iff_split.mpr fun _ _ _ _ => trivial
  · exact open_iff_calm evs rfl rfl

end Restart

/-- A message of the interface that the account manager passes on. -/
def update : List (Event X509Key) :=
  [.message (.updateRepositoryConfiguration ⟨"a", .empty, ⟨0, 1⟩, 0⟩) (GitDirectories.works 1)]

/-- It closes the database, and is not reported. -/
theorem not_staysOpen_update :
    (run (step "/git") (startOn "/git" DBClient.init [[]]) update).isClosed = true ∧
      ¬ Meets (step "/git") (Safe "/git") (startOn "/git" DBClient.init [[]]) update := by
  refine ⟨rfl, fun h => ?_⟩
  have hopen := h.1.isOpen (by simp) rfl
  cases hopen

end ServeD.Managers.GitRestart
