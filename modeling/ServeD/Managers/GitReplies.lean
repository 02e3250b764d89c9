import ServeD.Managers.GitDirectories

/-! # Replies of the git manager

A client sends requests to the git manager, among whatever else the manager receives. The protocol
is one reply to each request (`Answered`), so that the `i`-th reply belongs to the `i`-th request.

The wrapper `withRepo` replies, and so do the handlers inside it and after it: a request that
changes a repository is answered twice, and a request to change the keys of an unknown one is
refused and then confirmed. What is answered once is told by `OneReply`, and the replies stay in
step with the requests exactly as long as all requests are of this kind (`answered_iff`). -/

namespace ServeD.Managers.GitReplies

open ServeD.Lib.ObjectStore ServeD.Lib.Runs ServeD.Lib.ImmutableSets ServeD.Lib.Directories
open ServeD.Api.Records ServeD.Api.Keys ServeD.Db.Client ServeD.Managers.Git
open ServeD.Managers.GitDirectories (records raises_createRepository)

/-! ### Requests -/

inductive Request (K : Type) where
  | listRepositories
  | getRepositoryByName (name : String)
  | getRepositoryByUUID (uuid : UUID)
  | createRepository (name : String)
  | removeRepository (uuid : UUID)
  | addAuthorizedKey (uuid : UUID) (key : AccessKey K)
  | removeAuthorizedKey (uuid : UUID) (key : AccessKey K)
  deriving DecidableEq

variable {K : Type}

namespace Request

def toMsg : Request K → Msg K
  | .listRepositories => .listRepositories
  | .getRepositoryByName name => .getRepositoryByName name
  | .getRepositoryByUUID u => .getRepositoryByUUID u
  | .createRepository name => .createRepository name
  | .removeRepository u => .removeRepository u
  | .addAuthorizedKey u key => .addAuthorizedKey u key
  | .removeAuthorizedKey u key => .removeAuthorizedKey u key

/-- The repository that the request is to change. -/
def addressed : Request K → Option UUID
  | .removeRepository u => some u
  | .addAuthorizedKey u _ => some u
  | .removeAuthorizedKey u _ => some u
  | _ => none

end Request

/-- What the manager receives: the requests of the client, and anything else. -/
inductive Traffic (K : Type) where
  | request (r : Request K) (out : Outside)
  | another (e : Event K)
  deriving DecidableEq

namespace Traffic

def event : Traffic K → Event K
  | .request r out => .message r.toMsg out
  | .another e => e

def isRequest : Traffic K → Bool
  | .request _ _ => true
  | .another _ => false

end Traffic

section Protocol

variable [DecidableEq K] [HashCode K] [Neodatis (Repository K)]

/-- The change that the request asks for is made from `a` to `a'`. -/
def Applied (loc : String) (a a' : Actor K) : Request K → Prop
  | .removeRepository u => a'.db.find u = none ∧
      ∀ repo, a.db.find u = some repo → repoLocation loc repo.value.name ∉ a'.dirs
  | .addAuthorizedKey u key =>
      Keys.authorizedKeys a'.db u = (Keys.authorizedKeys a.db u).insert key
  | .removeAuthorizedKey u key =>
      Keys.authorizedKeys a'.db u = (Keys.authorizedKeys a.db u).remove key
  | _ => True

/-- One reply; to a change, success if the repository existed and the change was made, else an error
with nothing changed. -/
structure Answered (loc : String) (a : Actor K) (r : Request K) (out : Outside) : Prop where
  once : (replies loc a r.toMsg out).length = 1
  change : ∀ u, r.addressed = some u →
    ((a.db.find u).isSome = true ∧ Applied loc a (step loc a (.message r.toMsg out)) r ∧
      replies loc a r.toMsg out = [.apiSuccess]) ∨
    (¬ ((a.db.find u).isSome = true ∧ Applied loc a (step loc a (.message r.toMsg out)) r) ∧
      replies loc a r.toMsg out = [.repositoryDoesNotExistError] ∧
      (step loc a (.message r.toMsg out)).db = a.db ∧
      (step loc a (.message r.toMsg out)).dirs = a.dirs)

omit [DecidableEq K] [HashCode K] [Neodatis (Repository K)] in
/-- The manager is at work, and the request is one that is answered once. -/
def OneReply (a : Actor K) (r : Request K) (out : Outside) : Prop :=
  a.stopped = false ∧ a.isClosed = false ∧
    match r with
    | .createRepository name =>
      (∀ r ∈ records a.db, r.name ≠ name) → out.init = .returns
    | .removeRepository u => a.db.find u = none
    | .addAuthorizedKey _ _ => False
    | .removeAuthorizedKey _ _ => False
    | _ => True

/-- A property of the requests among the traffic. -/
def Requests (P : Actor K → Request K → Outside → Prop) (a : Actor K) : Traffic K → Prop
  | .request r out => P a r out
  | .another _ => True

def stepOf (loc : String) (a : Actor K) (t : Traffic K) : Actor K := step loc a t.event

/-- How many replies each request of the client gets. -/
def counts (loc : String) : Actor K → List (Traffic K) → List ℕ
  | _, [] => []
  | a, .request r out :: ts =>
    (replies loc a r.toMsg out).length :: counts loc (stepOf loc a (.request r out)) ts
  | a, .another e :: ts => counts loc (stepOf loc a (.another e)) ts

/-- The requests that the replies belong to, in the order of the replies; `k` is the number of the
first request. -/
def owners : ℕ → List ℕ → List ℕ
  | _, [] => []
  | k, n :: ns => List.replicate n k ++ owners (k + 1) ns

end Protocol

/-! ### Owners -/

theorem le_of_mem_owners : ∀ {ns : List ℕ} {k i : ℕ}, i ∈ owners k ns → k ≤ i
  | [], _, _, h => by cases h
  | n :: ns, k, i, h => by
    rcases List.mem_append.mp h with h | h
    · exact (List.eq_of_mem_replicate h).ge
    · have := le_of_mem_owners h
      omega

/-- The replies are in step with the requests exactly when each request has one. -/
theorem owners_eq_range' : ∀ (ns : List ℕ) (k : ℕ),
    owners k ns = List.range' k ns.length ↔ ∀ n ∈ ns, n = 1
  | [], k => by simp [owners]
  | n :: ns, k => by
    rw [List.length_cons, List.range'_succ, List.forall_mem_cons, owners]
    rcases n with _ | _ | n
    · -- no reply: a later request owns the first one
      refine iff_of_false (fun h => ?_) fun h => by omega
      have hk : k ∈ owners (k + 1) ns := by
        rw [List.replicate_zero, List.nil_append] at h
        rw [h]; simp
      have := le_of_mem_owners hk
      omega
    · rw [List.replicate_one, List.singleton_append, List.cons.injEq, owners_eq_range' ns (k + 1)]
      simp
    · -- a second reply stands where the next request has its own
      refine iff_of_false (fun h => ?_) fun h => by omega
      rw [List.replicate_succ, List.cons_append, List.cons.injEq, List.replicate_succ,
        List.cons_append] at h
      have hk : k ∈ List.range' (k + 1) ns.length := by rw [← h.2]; simp
      have := (List.mem_range'_1.mp hk).1
      omega

/-! ### One request -/

section Request

variable [DecidableEq K] [HashCode K] [Neodatis (Repository K)] {loc : String} {a : Actor K}
  {r : Request K} {out : Outside}

/-- The number of replies to a change of keys. -/
theorem length_keyMsg (loc : String) (out : Outside) (h : a.isClosed = false) (u : UUID)
    (o : Keys.KeyOp K) :
    (result loc out a.toState (keyMsg u o)).replies.length = 2 := by
  rcases hf : a.db.find u with _ | repo
  · cases o <;> simp [result, keyMsg, handlers, query_open h, withRepo, hf, Result.andReply]
  · cases o <;> simp [result, keyMsg, handlers, query_open h, withRepo, hf, Result.andReply]

theorem length_createRepository (h : a.isClosed = false) (name : String) :
    (result loc out a.toState (.createRepository name)).replies.length = 1 ↔
      ((∀ r ∈ records a.db, r.name ≠ name) → out.init = .returns) := by
  have hr : result loc out a.toState (.createRepository name) =
      createRepository loc out a.toState name := query_open h _
  rw [hr, ← raises_createRepository loc out a.toState name]
  unfold createRepository
  rcases (nativeQueryCollection a.db.currentODB fun r => r.name == name).head? with _ | o
  · rcases hi : out.init with _ | made
    · simp [gitInit, hi]
    · simp [gitInit, hi]
  · exact iff_of_true rfl rfl

/-- A closed database answers nothing. -/
theorem replies_closed (hs : a.stopped = false) (h : a.isClosed = true) (r : Request K) :
    replies loc a r.toMsg out = [] := by
  rw [replies_message hs]
  cases r <;> simp [result, Request.toMsg, handlers, query, h, Result.andReply]

/-- The requests that are answered once. -/
theorem length_replies (r : Request K) :
    (replies loc a r.toMsg out).length = 1 ↔ OneReply a r out := by
  rcases hs : a.stopped with _ | _
  swap
  · refine iff_of_false (by simp [replies, hs]) fun h => ?_
    rw [h.1] at hs; cases hs
  rcases hc : a.isClosed with _ | _
  swap
  · refine iff_of_false (by simp [replies_closed hs hc]) fun h => ?_
    rw [h.2.1] at hc; cases hc
  rw [replies_message hs]
  -- what is left is the request itself
  have hone : ∀ {P Q : Prop}, (P ↔ Q) → (P ↔ a.stopped = false ∧ a.isClosed = false ∧ Q) := fun h =>
    ⟨fun hp => ⟨hs, hc, h.mp hp⟩, fun hq => h.mpr hq.2.2⟩
  cases r with
  | listRepositories => exact hone (by simp [result, Request.toMsg, handlers, query_open hc])
  | getRepositoryByName name =>
    exact hone (by simp [result, Request.toMsg, handlers, query_open hc])
  | getRepositoryByUUID u => exact hone (by simp [result, Request.toMsg, handlers, query_open hc])
  | createRepository name => exact hone (length_createRepository hc name)
  | removeRepository u =>
    refine hone ?_
    rw [result, Request.toMsg, handlers, query_open hc, Option.getD_some, withRepo]
    rcases hf : a.db.find u with _ | repo
    · exact iff_of_true rfl hf
    · refine iff_of_false ?_ (by simp [hf])
      simp only [removeRepository]
      split_ifs <;> simp
  | addAuthorizedKey u key =>
    refine hone (iff_of_false (fun h => ?_) id)
    have := length_keyMsg loc out hc u (.add key)
    exact absurd (this.symm.trans h) (by decide)
  | removeAuthorizedKey u key =>
    refine hone (iff_of_false (fun h => ?_) id)
    have := length_keyMsg loc out hc u (.remove key)
    exact absurd (this.symm.trans h) (by decide)

/-- A request that is answered once is answered as it should be. -/
theorem answered_of_oneReply (h : OneReply a r out) : Answered loc a r out where
  once := (length_replies r).mpr h
  change := by
    intro u hu
    obtain ⟨hs, hc, hr⟩ := h
    cases r with
    | removeRepository v =>
      cases hu
      have hf : a.db.find u = none := hr
      have hres : result loc out a.toState (.removeRepository u) =
          ⟨a.toState, [.repositoryDoesNotExistError], false⟩ := by
        refine (query_open hc _).trans ?_
        simp only [withRepo, hf]
      right
      refine ⟨fun hex => ?_, ?_, ?_, ?_⟩
      · rw [hf] at hex; cases hex.1
      · rw [replies_message hs, Request.toMsg, hres]
      · rw [step_message hs, Request.toMsg, hres]; rfl
      · rw [step_message hs, Request.toMsg, hres]; rfl
    | addAuthorizedKey v key => exact absurd hr id
    | removeAuthorizedKey v key => exact absurd hr id
    | _ => cases hu

theorem answered_iff_oneReply : Answered loc a r out ↔ OneReply a r out :=
  ⟨fun h => (length_replies r).mp h.once, answered_of_oneReply⟩

/-- The counts along a run are all one exactly when all requests are of this kind. -/
theorem counts_eq_one : ∀ (ts : List (Traffic K)) (a : Actor K),
    (∀ n ∈ counts loc a ts, n = 1) ↔ Meets (stepOf loc) (Requests OneReply) a ts
  | [], a => by simp [counts]
  | .request r out :: ts, a => by
    rw [counts, List.forall_mem_cons, meets_cons, counts_eq_one ts, length_replies]
    rfl
  | .another e :: ts, a => by
    rw [counts, meets_cons, counts_eq_one ts]
    exact (and_iff_right trivial).symm

theorem length_counts : ∀ (ts : List (Traffic K)) (a : Actor K),
    (counts loc a ts).length = (ts.filter Traffic.isRequest).length
  | [], a => rfl
  | .request r out :: ts, a => by
    rw [counts, List.length_cons, length_counts ts]
    rfl
  | .another e :: ts, a => by
    rw [counts, length_counts ts]
    rfl

end Request

/-! ### Runs -/

section Runs

variable [DecidableEq K] [HashCode K] [Neodatis (Repository K)]

/-- **The git manager keeps to its protocol exactly as long as the requests are of the kind
`OneReply`**: in every run, whatever else it receives. The requests are then answered as they should
be, and only then does the `i`-th reply belong to the `i`-th request. -/
theorem answered_iff (loc : String) (dirs : List Path) (ts : List (Traffic K)) :
    (Meets (stepOf loc) (Requests (Answered loc)) (start loc dirs) ts ↔
      Meets (stepOf loc) (Requests OneReply) (start loc dirs) ts) ∧
    (owners 0 (counts loc (start loc dirs) ts) = List.range (ts.filter Traffic.isRequest).length ↔
      Meets (stepOf loc) (Requests OneReply) (start loc dirs) ts) := by
  constructor
  · refine meets_congr (P := fun _ => True) (E := fun _ _ => True) (fun _ _ _ _ =>
    trivial) ?_ trivial ?_
    · intro a t _ _
      cases t with
      | request r out => exact answered_iff_oneReply
      | another e => exact Iff.rfl
    · exact meets_iff_split.mpr fun _ _ _ _ => trivial
  · rw [← length_counts ts (start loc dirs), List.range_eq_range', owners_eq_range', counts_eq_one]

end Runs

/-- A repository is created and removed, then the repositories are listed. -/
def createRemoveList : List (Traffic X509Key) :=
  [.request (.createRepository "a") (GitDirectories.works 1),
    .request (.removeRepository ⟨0, 1⟩) (GitDirectories.works 2),
    .request .listRepositories (GitDirectories.works 3)]

/-- The third reply belongs to the second request. -/
theorem not_answered_createRemoveList :
    owners 0 (counts "/git" (start "/git" [[]]) createRemoveList) = [0, 1, 1, 2] ∧
      ¬ Meets (stepOf "/git") (Requests (Answered "/git"))
        (start "/git" [[]]) createRemoveList := by
  refine ⟨by decide, fun h => ?_⟩
  exact absurd h.2.1.once (by decide)

end ServeD.Managers.GitReplies
