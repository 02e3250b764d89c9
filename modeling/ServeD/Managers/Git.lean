import ServeD.Lib.Directories
import ServeD.Utils.Path
import ServeD.Managers.Keys

/-! # The git manager

`SvdGitManager` with `GitCore.init`, as an actor: the handlers of `receive`, `withRepo`, the wrapper
`traceReceive` of `SvdActor`, and the hooks `preStart` and `postStop` that a restart goes through.
Its database is the client that `SvdAccountManager` opened and uses itself.

JGit, the file system below `rm_r` and the generator of uuids are outside: `Outside` is what they do
while one message is handled. A closed database raises an exception at every use; so does the match
of `receive` on a message that it has no case for. Akka restarts an actor whose `receive` raises,
and stops it if it cannot be started again. -/

namespace ServeD.Managers.Git

open ServeD.Lib.ObjectStore ServeD.Lib.Runs ServeD.Lib.ImmutableSets ServeD.Lib.Directories
open ServeD.Api.Records ServeD.Api.Keys ServeD.Db.Client ServeD.Db.Invariant
open ServeD.Lib.ImmutableSets.ImmutableSet (empty)

instance : Neodatis (Repository X509Key) := Neodatis.stable

/-! ### Messages -/

/-- The messages: those of `receive`, the others of `Git.Base`, and anything else. -/
inductive Msg (K : Type) where
  | listRepositories
  | getRepositoryByName (name : String)
  | getRepositoryByUUID (uuid : UUID)
  | createRepository (name : String)
  | removeRepository (uuid : UUID)
  | addAuthorizedKey (uuid : UUID) (key : AccessKey K)
  | removeAuthorizedKey (uuid : UUID) (key : AccessKey K)
  | repository (repo : Repository K)
  | repositoryExistsError
  | updateRepositoryConfiguration (repo : Repository K)
  | repositoryDoesNotExistError
  | repositories (repos : List (Repository K))
  | other
  deriving DecidableEq

inductive Reply (K : Type) where
  | repositories (repos : List (Repository K))
  | found (repo : Option (Repository K))
  | repository (repo : Repository K)
  | repositoryExistsError
  | apiSuccess
  | repositoryDoesNotExistError
  deriving DecidableEq

/-- What `JGit.init` does: it returns, or raises an exception with or without the directory made. -/
inductive Init where
  | returns
  | raises (made : Bool)
  deriving DecidableEq, Repr

/-- What comes from outside while a message is handled: the uuid and date of a new record, JGit, and
whether `rm_r` removes the directory (it catches every exception). -/
structure Outside where
  new : Fresh
  init : Init
  removes : Bool
  deriving DecidableEq, Repr

/-! ### Handlers -/

/-- The database of the account, whether it is closed, and the directories. -/
structure State (K : Type) where
  db : DBClient (Repository K)
  isClosed : Bool
  dirs : List Path
  deriving DecidableEq

/-- The state after a handler and its replies in order;
the handler returns or raises an exception. -/
structure Result (K : Type) where
  state : State K
  replies : List (Reply K)
  raises : Bool
  deriving DecidableEq

variable {K : Type}

/-- `gitRepositoriesLocation / name + ".git"`. -/
def repoLocation (gitRepositoriesLocation name : String) : Path :=
  resolve (Utils.Path.join gitRepositoriesLocation name ++ ".git").toList

/-- A handler that begins with a query. -/
def query (s : State K) (f : Result K) : Result K := if s.isClosed then ⟨s, [], true⟩ else f

/-- The reply of `withRepo` comes after those of its body. -/
def withRepo (s : State K) (u : UUID) (f : Repository K → State K × List (Reply K)) : Result K :=
  match s.db.find u with
  | some repo =>
    let r := f repo.value
    ⟨r.1, r.2 ++ [.apiSuccess], false⟩
  | none => ⟨s, [.repositoryDoesNotExistError], false⟩

/-- A handler that goes on after its part: `sender ! reply`. -/
def Result.andReply (r : Result K) (reply : Reply K) : Result K :=
  if r.raises then r else { r with replies := r.replies ++ [reply] }

/-- `GitCore.init(gitRepositoriesLocation / repo.name, bare = true)`. -/
def gitInit (gitRepositoriesLocation : String) (out : Outside) (dirs : List Path) (name : String) :
    List Path × Bool :=
  match out.init with
  | .returns => (mkdirs dirs (repoLocation gitRepositoriesLocation name), false)
  | .raises made =>
    (if made then mkdirs dirs (repoLocation gitRepositoriesLocation name) else dirs, true)

section Receive

variable [DecidableEq K] [HashCode K] [Neodatis (Repository K)]

/-- `Git.CreateRepository(name)`. -/
def createRepository (gitRepositoriesLocation : String) (out : Outside) (s : State K)
    (name : String) :
    Result K :=
  match (nativeQueryCollection s.db.currentODB fun r => r.name == name).head? with
  | some _ => ⟨s, [.repositoryExistsError], false⟩
  | none =>
    let repo : Repository K := ⟨name, empty, out.new.uuid, out.new.now⟩
    let made := gitInit gitRepositoriesLocation out s.dirs repo.name
    if made.2 then ⟨{ s with dirs := made.1 }, [], true⟩
    else ⟨{ s with db := s.db.saveNew repo, dirs := made.1 }, [.repository repo], false⟩

/-- The body of `Git.RemoveRepository(uuid)`. -/
def removeRepository (gitRepositoriesLocation : String) (out : Outside) (s : State K)
    (repo : Repository K) : State K × List (Reply K) :=
  let location := repoLocation gitRepositoriesLocation repo.name
  if location ∉ s.dirs then (s, [.repositoryDoesNotExistError])
  else
    ({ s with
        db := s.db.remove repo.uuid
        dirs := if out.removes then rm_r s.dirs location else s.dirs },
      [.apiSuccess])

/-- `db << repo.copy(authorizedKeys = …)`. -/
def saveKeys (now : ℤ) (s : State K) (repo : Repository K) (keys : ImmutableSet (AccessKey K)) :
    State K :=
  { s with db := s.db.saveNew { repo with authorizedKeys := keys, createdAt := now } }

/-- The cases of `receive`. -/
def handlers (gitRepositoriesLocation : String) (out : Outside) (s : State K) :
    Msg K → Option (Result K)
  | .listRepositories => some <| query s
      ⟨s, [.repositories ((classQueryCollection s.db.currentODB).map (·.value))], false⟩
  | .getRepositoryByName name => some <| query s
      ⟨s, [.found ((nativeQueryCollection s.db.currentODB fun r => r.name == name).head?.map
        (·.value))], false⟩
  | .getRepositoryByUUID u => some <| query s ⟨s, [.found ((s.db.find u).map (·.value))], false⟩
  | .createRepository name => some <| query s (createRepository gitRepositoriesLocation out s name)
  | .removeRepository u => some <| query s
      (withRepo s u fun repo => removeRepository gitRepositoriesLocation out s repo)
  | .addAuthorizedKey u key => some <| (query s (withRepo s u fun repo =>
      (saveKeys out.new.now s repo (repo.authorizedKeys.insert key), []))).andReply .apiSuccess
  | .removeAuthorizedKey u key => some <| (query s (withRepo s u fun repo =>
      (saveKeys out.new.now s repo (repo.authorizedKeys.remove key), []))).andReply .apiSuccess
  | .repository _ => some ⟨s, [], false⟩
  | .repositoryExistsError => some ⟨s, [], false⟩
  | _ => none

end Receive

/-- `traceReceive(f)`, in the state `s`: defined for every message, and `f(msg)` raises where `f` is
not defined. -/
def traceReceive (s : State K) (f : Msg K → Option (Result K)) : Msg K → Option (Result K) :=
  fun msg => some ((f msg).getD ⟨s, [], true⟩)

/-! ### The actor -/

/-- The actor, with the messages that were passed to `unhandled`. -/
structure Actor (K : Type) extends State K where
  stopped : Bool
  reported : List (Msg K)
  deriving DecidableEq

inductive Event (K : Type) where
  | message (msg : Msg K) (out : Outside)
  /-- the account manager stops, and its children with it -/
  | stop
  deriving DecidableEq

def checkOrCreateDir (dirs : List Path) (dir : String) : List Path :=
  if resolve dir.toList ∈ dirs then dirs else mkdirs dirs (resolve dir.toList)

/-- The directory is checked, then the repositories are listed. -/
def preStart (gitRepositoriesLocation : String) (s : State K) : Result K :=
  let s := { s with dirs := checkOrCreateDir s.dirs gitRepositoriesLocation }
  query s ⟨s, [], false⟩

def postStop (s : State K) : State K := { s with isClosed := true }

/-- A restart: `preRestart` calls `postStop`, and the new instance is started. -/
def restart (gitRepositoriesLocation : String) (a : Actor K) (s : State K) : Actor K :=
  let r := preStart gitRepositoriesLocation (postStop s)
  ⟨r.state, r.raises, a.reported⟩

/-- The manager after `preStart`, on the database `db`. -/
def startOn (gitRepositoriesLocation : String) (db : DBClient (Repository K)) (dirs : List Path) :
    Actor K :=
  ⟨(preStart gitRepositoriesLocation ⟨db, false, dirs⟩).state, false, []⟩

/-- The manager after `preStart`, with an empty database. -/
def start (gitRepositoriesLocation : String) (dirs : List Path) : Actor K :=
  startOn gitRepositoriesLocation DBClient.init dirs

theorem query_open {s : State K} (h : s.isClosed = false) (r : Result K) : query s r = r := by
  rw [query, h]; rfl

theorem start_eq (loc : String) (dirs : List Path) :
    start loc dirs = (⟨⟨DBClient.init, false, checkOrCreateDir dirs loc⟩, false, []⟩ : Actor K) :=
  rfl

/-- A restart ends with the database closed and the manager stopped. -/
theorem restart_eq (loc : String) (a : Actor K) (s : State K) :
    restart loc a s = ⟨⟨s.db, true, checkOrCreateDir s.dirs loc⟩, true, a.reported⟩ := rfl

section Step

variable [DecidableEq K] [HashCode K] [Neodatis (Repository K)]

def receive (gitRepositoriesLocation : String) (out : Outside) (s : State K) :
    Msg K → Option (Result K) :=
  traceReceive s (handlers gitRepositoriesLocation out s)

def step (gitRepositoriesLocation : String) (a : Actor K) : Event K → Actor K
  | .message msg out =>
    if a.stopped then a
    else
      match receive gitRepositoriesLocation out a.toState msg with
      | none => { a with reported := a.reported ++ [msg] }
      | some r =>
        if r.raises then restart gitRepositoriesLocation a r.state
        else { a with toState := r.state }
  | .stop => { a with toState := postStop a.toState, stopped := true }

/-- The replies to the sender of a message. -/
def replies (gitRepositoriesLocation : String) (a : Actor K) (msg : Msg K) (out : Outside) :
    List (Reply K) :=
  if a.stopped then []
  else ((receive gitRepositoriesLocation out a.toState msg).map (·.replies)).getD []

end Step

/-! ### One message -/

section Message

variable [DecidableEq K] [HashCode K] [Neodatis (Repository K)] {loc : String} {out : Outside}
  {a : Actor K} {s : State K} {msg : Msg K}

/-- `receive` as the actor sees it: what no case matches raises. -/
def result (loc : String) (out : Outside) (s : State K) (msg : Msg K) : Result K :=
  (handlers loc out s msg).getD ⟨s, [], true⟩

/-- No message is passed to `unhandled`. -/
theorem step_message (h : a.stopped = false) :
    step loc a (.message msg out) =
      if (result loc out a.toState msg).raises then
        restart loc a (result loc out a.toState msg).state
      else { a with toState := (result loc out a.toState msg).state } := by
  simp only [step, receive, traceReceive, h, Bool.false_eq_true, if_false]
  rfl

theorem replies_message (h : a.stopped = false) :
    replies loc a msg out = (result loc out a.toState msg).replies := by
  simp only [replies, receive, traceReceive, h, Bool.false_eq_true, if_false]
  rfl

omit [DecidableEq K] [HashCode K] [Neodatis (Repository K)] in
/-- The message that adds a key to a repository, or removes it. -/
def keyMsg (u : UUID) : Keys.KeyOp K → Msg K
  | .add key => .addAuthorizedKey u key
  | .remove key => .removeAuthorizedKey u key

/-- The handlers about keys are those of `Keys`. -/
theorem result_keyMsg (loc : String) (out : Outside) (h : s.isClosed = false) (u : UUID)
    (o : Keys.KeyOp K) :
    (result loc out s (keyMsg u o)).raises = false ∧
      (result loc out s (keyMsg u o)).state =
        { s with db := Keys.update s.db u o out.new.now } := by
  cases o with
  | add key =>
    simp only [result, keyMsg, handlers, query_open h, withRepo, Keys.update, Keys.withRepo]
    rcases s.db.find u with _ | repo
    · exact ⟨rfl, rfl⟩
    · exact ⟨rfl, rfl⟩
  | remove key =>
    simp only [result, keyMsg, handlers, query_open h, withRepo, Keys.update, Keys.withRepo]
    rcases s.db.find u with _ | repo
    · exact ⟨rfl, rfl⟩
    · exact ⟨rfl, rfl⟩

end Message

end ServeD.Managers.Git
