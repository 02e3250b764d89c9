import ServeD.Lib.Actors
import ServeD.Managers.Domains
import ServeD.Managers.Ports
import ServeD.Web.Cookies

/-! # The web panel

The requests of the web API on their way: `SvdPOST.scala` and `checkAuth` of
`SvdWebAuthCommon.scala`, the messages that `SvdWebManager`, `SvdAccountManager`,
`SvdSystemManager`, `SvdUserBoot` and `SvdMoshManager` make of them, and the answers, for any number
of requests at once. A request waits for the first answer to its question, or for the end of its
time. -/

namespace ServeD.Web.Panel

open ServeD.Lib ServeD.Lib.Texts ServeD.Lib.Integers ServeD.Lib.ObjectStore ServeD.Lib.Actors
open ServeD.Api.Records ServeD.Db.Client ServeD.Db.Invariant
open ServeD.Managers ServeD.Managers.WebApi ServeD.Managers.AccountUtils
open ServeD.Managers.Domains (validate matcherFQDN)
open ServeD.Web.Cookies

/-! ### Requests -/

structure Http where
  path : Text
  /-- the values of a parameter -/
  params : Text → List Text
  /-- the values of the headers `Cookie` -/
  cookies : List Text
  /-- the time -/
  now : ℤ

inductive Response where
  /-- with the header `Set-Cookie` -/
  | json (text : Text) (setCookie : Option Text)
  /-- an exception in the handler -/
  | failed
  deriving DecidableEq

/-- The messages that requests bring about. -/
inductive Msg where
  | getUserProcesses (uid : ℤ)
  | registerDomain (domain : Text)
  | getRegisteredDomains
  | getStoredServices
  | terminateServices
  | storeServices
  | spawnService (serviceName : Text)
  | terminateService (name : Text)
  | showAvailableServices
  | spawnServices
  | getServiceStatus (serviceName : Text)
  | getServicePort (serviceName : Text)
  | cloneIgniterForUser (igniterName : Text) (userIgniterNewName : Option Text)
  | registerAccount (userName : Text)
  | createFileWatch (fileName : Text) (flags : ℤ) (serviceName : Text)
  | destroyFileWatch (fileName : Text)
  | getAccountPriviledges
  | restartAccountManager
  | getUserPorts
  | removeAllUserPorts
  | registerUserPort
  | moshSession
  /-- `User.StoreUserDomain` -/
  | storeUserDomain (domain : Text)
  /-- `System.RegisterUserPort` -/
  | systemRegisterUserPort
  | port (number : ℤ)
  /-- `ApiSuccess`, `ApiError` or a text -/
  | answer (a : Answer)
  deriving DecidableEq

/-- `params.get(key).flatMap { _.headOption } getOrElse("")` -/
def Http.param (http : Http) (key : String) : Text := (http.params key.toList).head?.getD []

structure Route where
  path : Text
  /-- inside of `checkAuth` -/
  auth : Bool
  /-- the question, or `none` for an exception -/
  question : Http → Option Msg

/-- The requests that are questions to the web manager. -/
def routes (uid : ℤ) : List Route :=
  [⟨"/GetUserProcesses".toList, true, fun _ => some (.getUserProcesses uid)⟩,
    ⟨"/RegisterDomain".toList, true, fun http =>
      some (.registerDomain (http.param "RegisterDomain"))⟩,
    ⟨"/GetRegisteredDomains".toList, true, fun _ => some .getRegisteredDomains⟩,
    ⟨"/GetStoredServices".toList, true, fun _ => some .getStoredServices⟩,
    ⟨"/TerminateServices".toList, true, fun _ => some .terminateServices⟩,
    ⟨"/StoreServices".toList, true, fun _ => some .storeServices⟩,
    ⟨"/SpawnService".toList, true, fun http => some (.spawnService (http.param "SpawnService"))⟩,
    ⟨"/TerminateService".toList, true, fun http =>
      some (.terminateService (http.param "TerminateService"))⟩,
    ⟨"/ShowAvailableServices".toList, true, fun _ => some .showAvailableServices⟩,
    ⟨"/SpawnServices".toList, true, fun _ => some .spawnServices⟩,
    ⟨"/GetServiceStatus".toList, true, fun http =>
      some (.getServiceStatus (http.param "GetServiceStatus"))⟩,
    ⟨"/GetServicePort".toList, true, fun http =>
      some (.getServicePort (http.param "GetServicePort"))⟩,
    ⟨"/CloneIgniterForUser".toList, true, fun http =>
      some (.cloneIgniterForUser (http.param "IgniterName") (some (http.param "UserIgniterName")))⟩,
    ⟨"/RegisterAccount".toList, false, fun http =>
      some (.registerAccount (http.param "RegisterAccount"))⟩,
    ⟨"/CreateFileWatch".toList, true, fun http =>
      (parseInt (String.ofList (http.param "Flags"))).map fun flags =>
      .createFileWatch (http.param "CreateFileWatch") flags (http.param "ServiceName")⟩,
    ⟨"/DestroyFileWatch".toList, true, fun http =>
      some (.destroyFileWatch (http.param "DestroyFileWatch"))⟩,
    ⟨"/GetAccountPriviledges".toList, true, fun _ => some .getAccountPriviledges⟩,
    ⟨"/RestartAccountManager".toList, true, fun _ => some .restartAccountManager⟩,
    ⟨"/GetUserPorts".toList, true, fun _ => some .getUserPorts⟩,
    ⟨"/RemoveAllReservedPorts".toList, true, fun _ => some .removeAllUserPorts⟩,
    ⟨"/RegisterUserPort".toList, true, fun _ => some .registerUserPort⟩,
    ⟨"/MoshSession".toList, true, fun _ => some .moshSession⟩]

inductive Handled where
  | respond (response : Response)
  | ask (m : Msg)
  deriving DecidableEq

section Handling

variable (parseDate : Text → Option ℤ) (format : ℤ → Text)

def svdauth : Text := "svdauth".toList

/-- What `/Authorize` responds. -/
def authorizedResponse (http : Http) : Response :=
  .json "\x7b\"message\": \"Authorized successfully.\", \"status\": 0\x7d".toList
    (some (toCookies format http.now
      [{ Cookie.plain svdauth "kluczo!".toList with maxAge := some (3600 * 24) }]))

def invalidRequest : Response :=
  .json "\x7b\"message\": \"Invalid API request.\", \"status\":3\x7d".toList none

def unauthorized : Answer := .apiError "Unauthorized. Use /Authorize/key first.".toList none

/-- The block of a route. -/
def Route.block (route : Route) (http : Http) : Handled :=
  match route.question http with
  | none => .respond .failed
  | some m => .ask m

/-- `checkAuth`: any value of the cookie will do. -/
def checkAuth (cookies : Text → Option Cookie) (block : Handled) : Handled :=
  match cookies svdauth with
  | some _ => block
  | none => .ask (.answer unauthorized)

/-- `SvdPOST.intent` -/
def intent (uid : ℤ) (http : Http) : Handled :=
  if http.path = "/Authorize".toList then .respond (authorizedResponse format http)
  else
    match (routes uid).find? fun route => route.path = http.path with
    | none => .respond invalidRequest
    | some route =>
      match cookieValues parseDate http.now http.cookies with
      | .error _ => .respond .failed
      | .ok cookies =>
        if route.auth then checkAuth cookies (route.block http) else route.block http

/-- There is a cookie for `checkAuth`. -/
def Authorized (http : Http) : Bool :=
  match cookieValues parseDate http.now http.cookies with
  | .error _ => false
  | .ok cookies => (cookies svdauth).isSome

end Handling

/-! ### Actors -/

inductive Actor where
  | webManager
  | accountManager
  | systemManager
  | userBoot
  | moshManager
  | notificationCenter
  /-- what waits for the answer to a request -/
  | http (k : ℕ)
  /-- what waits for the port that the sender has asked for -/
  | futurePort (originSender : Actor)
  deriving DecidableEq

abbrev Mail := Envelope Actor Msg

/-- `forward` -/
def forward (to' : Actor) (e : Mail) : List Mail := [{ e with receiver := to' }]

/-- `sender ! a` -/
def reply (e : Mail) (a : Answer) : List Mail := [⟨e.sender, e.receiver, .answer a⟩]

/-- `SvdUserDomain`: a domain of the user. -/
structure SvdUserDomain where
  name : Text
  wildcard : Bool
  uuid : UUID
  createdAt : ℤ
  deriving DecidableEq

instance : Persistent SvdUserDomain := ⟨SvdUserDomain.uuid, SvdUserDomain.createdAt⟩

instance :
    BEq SvdUserDomain :=
  ⟨fun a b => a.name == b.name && a.wildcard == b.wildcard && a.uuid == b.uuid⟩

instance : ReflBEq SvdUserDomain where
  rfl := by
    intro a
    show (a.name == a.name && a.wildcard == a.wildcard && a.uuid == a.uuid) = true
    simp

/-- What the account manager keeps. -/
structure Account (A : Type) where
  domains : DBClient SvdUserDomain
  watches : FileWatch.World A
  ports : DBClient SvdUserPort
  /-- the senders whose ports are asked for -/
  futures : List Actor

/-- What is the same all the time. -/
structure Settings (A : Type) where
  headless : Bool
  uid : ℤ
  userHomeDir : String
  self : A

/-- What an actor meets while it handles a message. -/
structure Meets where
  new : Fresh
  draws : List Draw
  getByName : Text → Lookup
  service : ServiceAnswer
  /-- the exception of the copy, if there is one -/
  exception : Option Text
  processes : Text
  /-- the container of `SvdAccountSecurityCheck.load` -/
  priviledges : Option Text

/-- `SvdUserDomains(db)`, the names. -/
def domainNames (db : DBClient SvdUserDomain) : List Text :=
  (classQueryCollection db.currentODB).map fun o => o.value.name

/-- `userDomainRegistered` -/
def userDomainRegistered (db : DBClient SvdUserDomain) (domain : Text) : Bool :=
  if (nativeQueryCollection db.currentODB fun d => d.name == domain).isEmpty then false else true

/-- `registerUserDomain` -/
def registerUserDomain (db : DBClient SvdUserDomain) (new : Fresh) (domain : Text) :
    DBClient SvdUserDomain :=
  if !userDomainRegistered db domain then db.saveNew ⟨domain, true, new.uuid, new.now⟩ else db

section Actors

variable {A : Type} (c : Settings A)

/-- `SvdWebManager.receive` -/
def webManager (e : Mail) : List Mail :=
  match e.message with
  | .answer _ => []
  | _ => forward .accountManager e

/-- A message of `System.Base`. -/
def systemBase (e : Mail) : List Mail :=
  if c.headless then [] else forward .systemManager e

/-- `SvdAccountManager.started`, the messages of the panel. -/
def accountManager (m : Meets) (e : Mail) (a : Account A) : Account A × List Mail :=
  match e.message with
  | .restartAccountManager => (a, forward .userBoot e)
  | .cloneIgniterForUser _ _ => (a, reply e (Request.cloneIgniterForUser m.exception).answer)
  | .registerAccount _ => (a, reply e (.apiError "Not yet implemented.".toList none))
  | .spawnServices | .getStoredServices | .terminateServices | .storeServices
    | .showAvailableServices => (a, [])
  | .spawnService _ | .terminateService _ => (a, [])
  | .storeUserDomain domain => ({ a with domains := registerUserDomain a.domains m.new domain }, [])
  | .getRegisteredDomains =>
    (a, reply e (Request.getRegisteredDomains (domainNames a.domains)).answer)
  | .getServicePort _ => (a, reply e (Request.getServicePort m.service).answer)
  | .getServiceStatus _ => (a, reply e (Request.getServiceStatus m.service).answer)
  | .createFileWatch fileName flags serviceName =>
    let r := a.watches.createFileWatch c.userHomeDir c.self m.new (String.ofList fileName)
      (BitVec.ofInt 32 flags) (String.ofList serviceName)
    ({ a with watches := r.1 }, r.2.flatMap fun x => reply e (ofFileWatch x))
  | .destroyFileWatch fileName =>
    let r := a.watches.destroyFileWatch c.userHomeDir c.self (String.ofList fileName)
    ({ a with watches := r.1 }, r.2.flatMap fun x => reply e (ofFileWatch x))
  | .getUserPorts => (a, reply e (Request.getUserPorts (numbers a.ports)).answer)
  | .registerUserPort =>
    if c.headless then
      match randomFreePort m.draws with
      | none => (a, [])
      | some port =>
        ({ a with ports := AccountUtils.registerUserPort a.ports m.new port },
          reply e (Request.registerUserPort (.headless port)).answer)
    else
      ({ a with futures := e.sender :: a.futures },
        [⟨.systemManager, .futurePort e.sender, .systemRegisterUserPort⟩])
  | .removeAllUserPorts =>
    ({ a with ports := Ports.Manager.removePorts a.ports },
      reply e (.apiSuccess "User ports were removed".toList none))
  | .moshSession => (a, forward .moshManager e)
  | .getAccountPriviledges => (a, forward .systemManager e)
  | .getUserProcesses _ | .registerDomain _ | .systemRegisterUserPort => (a, systemBase c e)
  | .port _ | .answer _ => (a, [])

/-- `SvdSystemManager.receive` -/
def systemManager (m : Meets) (e : Mail) : List Mail :=
  match e.message with
  | .getAccountPriviledges =>
    match m.priviledges with
    | some container =>
      reply e (.jsonContent
        ("\x7b\"message\": \"Security check passed.\", \"status\": 0, \"content\": ".toList ++
        container ++ ['\x7d']))
    | none => reply e (.apiError "Priviledges Check Failed".toList none)
  | .registerDomain domain =>
    match (validate m.getByName domain).1 with
    | none => ⟨.webManager, .systemManager, .storeUserDomain domain⟩ :: reply e (registered none)
    | some x => reply e (registered (some x))
  | .getUserProcesses _ => reply e (.jsonContent m.processes)
  | .systemRegisterUserPort =>
    match randomFreePort m.draws with
    | none => []
    | some port => [⟨e.sender, .systemManager, .port port⟩]
  | _ => []

/-- `SvdUserBoot.receive` -/
def userBoot (e : Mail) : List Mail :=
  match e.message with
  | .restartAccountManager => reply e .done
  | _ => []

/-- `onSuccess` of the question for a port. -/
def futurePort (m : Meets) (originSender : Actor) (e : Mail) (a : Account A) :
    Account A × List Mail :=
  match e.message with
  | .port port =>
    if originSender ∈ a.futures then
      ({ a with
          ports := AccountUtils.registerUserPort a.ports m.new port,
          futures := a.futures.erase originSender },
        [⟨originSender, .accountManager,
          .answer (Request.registerUserPort (.systemManager port)).answer⟩])
    else (a, [])
  | _ => (a, [])

/-! ### The panel -/

/-- A request, and its response if it is over. -/
structure Visit where
  http : Http
  response : Option Response

structure State (A : Type) where
  account : Account A
  visits : ℕ → Option Visit

/-- The response to a request, if it still waits. -/
def State.respond (p : State A) (k : ℕ) (response : Response) : State A :=
  match p.visits k with
  | some ⟨http, none⟩ =>
    { p with visits := Function.update p.visits k (some ⟨http, some response⟩) }
  | _ => p

/-- A message is handled. -/
def receive (m : Meets) (e : Mail) (p : State A) : State A × List Mail :=
  match e.receiver with
  | .webManager => (p, webManager e)
  | .accountManager =>
    let r := accountManager c m e p.account
    ({ p with account := r.1 }, r.2)
  | .systemManager => (p, systemManager m e)
  | .userBoot => (p, userBoot e)
  | .moshManager | .notificationCenter => (p, [])
  | .http k =>
    match e.message with
    | .answer a => (p.respond k (.json (apiRespond (.success a)) none), [])
    | _ => (p, [])
  | .futurePort originSender =>
    let r := futurePort m originSender e p.account
    ({ p with account := r.1 }, r.2)

/-- What comes from outside: a request, the end of its time, the end of the time for a port, or
whatever else happens to the file watches. -/
inductive Input (parseDate : Text → Option ℤ) (format : ℤ → Text) [DecidableEq A]
    [Neodatis SvdFileEventBinding] :
    State A → State A → List Mail → Prop
  | respond {p : State A} {k : ℕ} {http : Http} {response : Response} (hnew : p.visits k = none)
      (h : intent parseDate format c.uid http = .respond response) :
      Input parseDate format p
        { p with visits := Function.update p.visits k (some ⟨http, some response⟩) } []
  | ask {p : State A} {k : ℕ} {http : Http} {m : Msg} (hnew : p.visits k = none)
      (h : intent parseDate format c.uid http = .ask m) :
      Input parseDate format p { p with visits := Function.update p.visits k (some ⟨http, none⟩) }
        [⟨.webManager, .http k, m⟩]
  | timeout {p : State A} (k : ℕ) : Input parseDate format p
    (p.respond k (.json (apiRespond .timeout) none)) []
  | noPort {p : State A} {originSender : Actor} (h : originSender ∈ p.account.futures) :
      Input parseDate format p
        { p with account := { p.account with futures := p.account.futures.erase originSender } }
        [⟨originSender, .accountManager, .answer (Request.registerUserPort .failed).answer⟩]
  | watch {p : State A} (e : FileWatch.Ev) (hcreate : ∀ fileName flags serviceName,
    e ≠ .create fileName flags serviceName)
      (hdestroy : ∀ fileName, e ≠ .destroy fileName) :
      Input parseDate format p
        { p with account :=
          { p.account with watches := FileWatch.step c.userHomeDir c.self p.account.watches e } } []

/-- The panel: whatever an actor meets, `randomUUID` gives it a uuid that is not in use. -/
def system (parseDate : Text → Option ℤ) (format : ℤ → Text) [DecidableEq A]
    [Neodatis SvdFileEventBinding] :
    System (State A) Actor Msg where
  handle e p p' out :=
    ∃ m : Meets, p.account.domains.find m.new.uuid = none ∧ receive c m e p = (p', out)
  input := Input c parseDate format

/-- Before the first request. -/
def start (a : Account A) : Net (State A) Actor Msg := ⟨⟨a, fun _ => none⟩, []⟩

end Actors

end ServeD.Web.Panel
