import ServeD.Web.Panel

/-! # Runs of the web panel

* `response_of_question`: a request gets an answer to its own question, or it is timed out. Nobody
  answers the questions about the services, nor that of a request without authorization;
* `answered_once`: when a request has got an answer, no second answer is on its way, ever. A
  question is in one place: with the visitor, on its way to a manager, among those who wait for a
  port, or on its way back as an answer. -/

namespace ServeD.Web.PanelRuns

open ServeD.Lib ServeD.Lib.Texts ServeD.Lib.Actors ServeD.Lib.ObjectStore
open ServeD.Api.Records ServeD.Db.Client ServeD.Db.Invariant
open ServeD.Managers ServeD.Managers.WebApi ServeD.Managers.AccountUtils
open ServeD.Managers.Domains (validate)
open ServeD.Web.Panel

variable {A : Type} {c : Settings A} {parseDate : Text → Option ℤ} {format : ℤ → Text}

/-! ### One visit -/

section Visit

def account : Account Unit := ⟨DBClient.init, FileWatch.World.init, DBClient.init, []⟩

def settings : Settings Unit := ⟨false, 501, "/Users/501/", ()⟩

abbrev panel : System (State Unit) Actor Msg := system settings (fun _ => none) fun _ => []

def user : Http := ⟨"/GetRegisteredDomains".toList, fun _ => [], ["svdauth=kluczo!".toList], 0⟩

def meets : Meets := ⟨⟨⟨0, 1⟩, 0⟩, [], fun _ => .bound, .askTimeout, none, [], none⟩

def visited (response : Option Response) : State Unit :=
  ⟨account, Function.update (fun _ => none) 0 (some ⟨user, response⟩)⟩

def noDomains : Answer := (Request.getRegisteredDomains []).answer

def domainsResponse : Response := .json (apiRespond (.success noDomains)) none

theorem step_asked :
    Step panel (start account) ⟨visited none, [⟨.webManager, .http 0, .getRegisteredDomains⟩]⟩ :=
  .input (.ask rfl rfl)

/-- The answer is on its way. -/
theorem reaches_answer :
    Reaches panel (start account) ⟨visited none,
        [] ++ ⟨.http 0, .accountManager, .answer noDomains⟩ :: []⟩ := by
  have hforwarded : Step panel ⟨visited none, [⟨.webManager, .http 0, .getRegisteredDomains⟩]⟩
      ⟨visited none, [⟨.accountManager, .http 0, .getRegisteredDomains⟩]⟩ :=
    .between [] [] ⟨meets, rfl, rfl⟩
  have hanswer : Step panel ⟨visited none, [⟨.accountManager, .http 0, .getRegisteredDomains⟩]⟩
      ⟨visited none, [⟨.http 0, .accountManager, .answer noDomains⟩]⟩ :=
    .between [] [] ⟨meets, rfl, rfl⟩
  exact ((Relation.ReflTransGen.single step_asked).tail hforwarded).tail hanswer

theorem handle_answer : panel.handle ⟨.http 0, .accountManager, .answer noDomains⟩ (visited none)
    (visited (some domainsResponse)) [] := by
  have hrespond : (visited none).respond 0 domainsResponse = visited (some domainsResponse) := by
    show State.mk account (Function.update (Function.update (fun _ => none) 0 _) 0 _) = visited _
    rw [Function.update_idem]
    rfl
  refine ⟨meets, rfl, ?_⟩
  show ((visited none).respond 0 domainsResponse, []) = _
  rw [hrespond]

theorem reaches_domainsResponse :
    Reaches panel (start account) ⟨visited (some domainsResponse), []⟩ :=
  reaches_answer.tail (.between [] [] handle_answer)

end Visit

/-! ### Questions and answers -/

section Questions

variable {http : Http} {m : Msg}

theorem block_ask {route : Route} (h : route.block http = .ask m) :
    route.question http = some m := by
  unfold Route.block at h
  split at h
  · cases h
  · next m' hquestion =>
    rw [hquestion]
    exact congrArg some (Handled.ask.inj h)

theorem block_respond {route : Route} {response : Response}
    (h : route.block http = .respond response) :
    response = .failed := by
  unfold Route.block at h
  split at h
  · exact (Handled.respond.inj h).symm
  · cases h

/-- What a request asks, if it asks: it is not authorized, or its route says so. -/
theorem intent_ask {uid : ℤ} (h : intent parseDate format uid http = .ask m) :
    (m = .answer unauthorized ∧ Authorized parseDate http = false) ∨
      ∃ route ∈ routes uid, route.path = http.path ∧ route.question http = some m ∧
        (route.auth = true → Authorized parseDate http = true) := by
  unfold intent at h
  split_ifs at h with hpath
  · split at h
    · cases h
    · next route hroute =>
      have hmem := List.mem_of_find?_eq_some hroute
      have hsame : route.path = http.path := by simpa using List.find?_some hroute
      split at h
      · cases h
      · next cookies hcookies =>
        have hauthorized : Authorized parseDate http = (cookies svdauth).isSome := by
          unfold Authorized
          rw [hcookies]
        split_ifs at h with hauth
        · unfold checkAuth at h
          split at h
          · next cookie hcookie =>
            exact .inr ⟨route, hmem, hsame, block_ask h, fun _ => by rw [hauthorized, hcookie]; rfl⟩
          · next hnone =>
            exact .inl ⟨(Handled.ask.inj h).symm, by rw [hauthorized, hnone]; rfl⟩
        · exact .inr ⟨route, hmem, hsame, block_ask h, fun hauth' => absurd hauth' hauth⟩

theorem intent_respond {uid : ℤ} {response : Response}
    (h : intent parseDate format uid http = .respond response) :
    response = authorizedResponse format http ∨ response = invalidRequest ∨ response = .failed := by
  unfold intent at h
  split_ifs at h
  · exact .inl (Handled.respond.inj h).symm
  · split at h
    · exact .inr (.inl (Handled.respond.inj h).symm)
    · next route hroute =>
      split at h
      · exact .inr (.inr (Handled.respond.inj h).symm)
      · split_ifs at h
        · unfold checkAuth at h
          split at h
          · exact .inr (.inr (block_respond h))
          · cases h
        · exact .inr (.inr (block_respond h))

/-- What the questions of all routes have in common: without `checkAuth` there is one of them, none
is what the managers ask each other, and a domain comes from the parameter of its route. -/
structure SoundRoute (route : Route) : Prop where
  free : ∀ http m, route.question http = some m → route.auth = true ∨ ∃ userName,
    m = .registerAccount userName
  panel : ∀ http m, route.question http = some m →
    m ≠ .systemRegisterUserPort ∧ ∀ domain, m ≠ .storeUserDomain domain
  domain : ∀ http domain, route.question http = some (.registerDomain domain) →
    route.auth = true ∧ route.path = "/RegisterDomain".toList ∧ http.param "RegisterDomain" = domain

/-- A route whose question is none of these. -/
theorem SoundRoute.plain {path : Text} {question : Http → Option Msg}
    (hpanel : ∀ http m, question http = some m → m ≠ .systemRegisterUserPort ∧
      ∀ domain, m ≠ .storeUserDomain domain)
    (hdomain : ∀ http domain, question http ≠ some (.registerDomain domain)) :
    SoundRoute ⟨path, true, question⟩ where
  free _ _ _ := .inl rfl
  panel := hpanel
  domain http domain h := absurd h (hdomain http domain)

theorem sound_of_mem {uid : ℤ} {route : Route} (h : route ∈ routes uid) : SoundRoute route := by
  simp only [routes, List.mem_cons, List.not_mem_nil, or_false] at h
  rcases h with rfl | rfl | rfl | rfl | rfl | rfl | rfl | rfl | rfl | rfl | rfl | rfl | rfl | rfl |
    rfl | rfl | rfl |
    rfl | rfl | rfl | rfl | rfl
  case inr.inl =>
    refine ⟨fun _ _ _ => .inl rfl, ?_, fun http domain h =>
      ⟨rfl, rfl, Msg.registerDomain.inj (Option.some.inj h)⟩⟩
    rintro http m h
    obtain rfl := Option.some.inj h
    simp
  case inr.inr.inr.inr.inr.inr.inr.inr.inr.inr.inr.inr.inr.inl =>
    refine ⟨fun http m h => .inr ⟨_, (Option.some.inj h).symm⟩, ?_, by simp⟩
    rintro http m h
    obtain rfl := Option.some.inj h
    simp
  case inr.inr.inr.inr.inr.inr.inr.inr.inr.inr.inr.inr.inr.inr.inl =>
    refine .plain (fun http m h => ?_) fun http domain h => ?_
    · obtain ⟨flags, -, rfl⟩ := Option.map_eq_some_iff.mp h
      simp
    · obtain ⟨flags, -, heq⟩ := Option.map_eq_some_iff.mp h
      cases heq
  all_goals
    refine .plain (fun http m h => ?_) (by simp)
    obtain rfl := Option.some.inj h
    simp

/-- Without authorization there is one route. -/
theorem question_of_unauthorized {uid : ℤ} (h : intent parseDate format uid http = .ask m)
    (hauth : Authorized parseDate http = false) :
    m = .answer unauthorized ∨ ∃ userName, m = .registerAccount userName := by
  rcases intent_ask h with ⟨hm, -⟩ | ⟨route, hmem, -, hquestion, hneeds⟩
  · exact .inl hm
  · rcases (sound_of_mem hmem).free http m hquestion with htrue | hname
    · exact absurd (hauth.symm.trans (hneeds htrue)) Bool.false_ne_true
    · exact .inr hname

/-- No request asks what the managers ask each other. -/
theorem ask_ne {uid : ℤ} (h : intent parseDate format uid http = .ask m) :
    m ≠ .systemRegisterUserPort ∧ ∀ domain, m ≠ .storeUserDomain domain := by
  rcases intent_ask h with ⟨rfl, -⟩ | ⟨route, hmem, -, hquestion, -⟩
  · simp
  · exact (sound_of_mem hmem).panel http m hquestion

/-- The answers that there are to a question. -/
def Answers (userHomeDir : String) : Msg → Answer → Prop
  | .getUserProcesses _, a => ∃ processes, a = .jsonContent processes
  | .registerDomain domain, a => ∃ getByName, a = registered (validate getByName domain).1
  | .getRegisteredDomains, a => ∃ domains, a = (Request.getRegisteredDomains domains).answer
  | .getServiceStatus _, a => ∃ service, a = (Request.getServiceStatus service).answer
  | .getServicePort _, a => ∃ service, a = (Request.getServicePort service).answer
  | .cloneIgniterForUser _ _, a => ∃ exception, a = (Request.cloneIgniterForUser exception).answer
  | .registerAccount _, a => a = .apiError "Not yet implemented.".toList none
  | .createFileWatch fileName _ _, a => ∃ there,
    a = (Request.createFileWatch userHomeDir.toList fileName there).answer
  | .destroyFileWatch fileName, a =>
    a = (Request.destroyFileWatch userHomeDir.toList fileName).answer
  | .getAccountPriviledges, a => (∃ text, a = .jsonContent text) ∨
    a = .apiError "Priviledges Check Failed".toList none
  | .restartAccountManager, a => a = .done
  | .getUserPorts, a => ∃ numbers, a = (Request.getUserPorts numbers).answer
  | .removeAllUserPorts, a => a = .apiSuccess "User ports were removed".toList none
  | .registerUserPort, a => ∃ source, a = (Request.registerUserPort source).answer
  | _, _ => False

/-- The question of a request. -/
def asked (c : Settings A) (parseDate : Text → Option ℤ) (format : ℤ → Text) (p : State A) (k : ℕ) :
    Option Msg :=
  match p.visits k with
  | none => none
  | some visit =>
    match intent parseDate format c.uid visit.http with
    | .respond _ => none
    | .ask m => some m

theorem asked_eq_some {p : State A} {k : ℕ} : asked c parseDate format p k = some m ↔
    ∃ visit, p.visits k = some visit ∧ intent parseDate format c.uid visit.http = .ask m := by
  unfold asked
  rcases p.visits k with _ | visit
  · simp
  · rcases hintent : intent parseDate format c.uid visit.http with r | m'
    · simp [hintent]
    · simp [hintent]

theorem asked_ne {p : State A} {k : ℕ} (h : asked c parseDate format p k = some m) :
    m ≠ .systemRegisterUserPort ∧ ∀ domain, m ≠ .storeUserDomain domain := by
  obtain ⟨visit, -, hintent⟩ := asked_eq_some.mp h
  exact ask_ne hintent

/-- The messages on their way: questions, answers to them,
and what the managers ask and tell each other. -/
inductive Fits (userHomeDir : String) (asked : ℕ → Option Msg) : Mail → Prop
  | question {k : ℕ} {m : Msg} (to' : Actor) (hhttp : ∀ j, to' ≠ .http j) (hport : ∀ o,
    to' ≠ .futurePort o)
      (h : asked k = some m) :
      Fits userHomeDir asked ⟨to', .http k, m⟩
  | answer {k : ℕ} {m : Msg} {a : Answer} (sender : Actor) (h : asked k = some m)
    (ha : Answers userHomeDir m a) :
      Fits userHomeDir asked ⟨.http k, sender, .answer a⟩
  | portQuestion {k : ℕ} (h : asked k = some .registerUserPort) :
      Fits userHomeDir asked ⟨.systemManager, .futurePort (.http k), .systemRegisterUserPort⟩
  | port {k : ℕ} {number : ℤ} (h : asked k = some .registerUserPort) :
      Fits userHomeDir asked ⟨.futurePort (.http k), .systemManager, .port number⟩
  | store {domain : Text} (to' : Actor) (hto : to' = .webManager ∨ to' = .accountManager) :
      Fits userHomeDir asked ⟨to', .systemManager, .storeUserDomain domain⟩

/-- The response of a visit is one to its question. -/
def Responded (c : Settings A) (parseDate : Text → Option ℤ) (format : ℤ → Text) (visit : Visit) :
    Prop :=
  ∀ response, visit.response = some response →
    match intent parseDate format c.uid visit.http with
    | .respond r => response = r
    | .ask m => response = .json (apiRespond .timeout) none ∨
        ∃ a, Answers c.userHomeDir m a ∧ response = .json (apiRespond (.success a)) none

theorem Fits.mono {userHomeDir : String} {asked asked' : ℕ → Option Msg} {e : Mail}
    (hle : ∀ k m, asked k = some m → asked' k = some m) (h : Fits userHomeDir asked e) :
    Fits userHomeDir asked' e := by
  cases h with
  | question to' hhttp hport h => exact .question to' hhttp hport (hle _ _ h)
  | answer sender h ha => exact .answer sender (hle _ _ h) ha
  | portQuestion h => exact .portQuestion (hle _ _ h)
  | port h => exact .port (hle _ _ h)
  | store to' hto => exact .store to' hto

theorem visits_respond (p : State A) (k : ℕ) (response : Response) (j : ℕ) :
    (p.respond k response).visits j = p.visits j ∨
      ∃ http, j = k ∧ p.visits j = some ⟨http, none⟩ ∧
        (p.respond k response).visits j = some ⟨http, some response⟩ := by
  unfold State.respond
  split
  · next http hvisit =>
    by_cases hj : j = k
    · subst hj
      exact .inr ⟨http, rfl, hvisit, Function.update_self _ _ _⟩
    · exact .inl (Function.update_of_ne hj _ _)
  · exact .inl rfl

theorem account_respond (p : State A) (k : ℕ) (response : Response) :
    (p.respond k response).account = p.account := by
  unfold State.respond
  split <;> rfl

theorem asked_respond (p : State A) (k : ℕ) (response : Response) :
    asked c parseDate format (p.respond k response) = asked c parseDate format p := by
  funext j
  unfold asked
  rcases visits_respond p k response j with h | ⟨http, -, hvisit, h⟩
  · rw [h]
  · rw [h, hvisit]

/-- Every response is one to its question, what waits has asked,
and ports are asked for by requests for a port. -/
structure Fine (c : Settings A) (parseDate : Text → Option ℤ) (format : ℤ → Text) (p : State A) :
    Prop where
  responded : ∀ k visit, p.visits k = some visit → Responded c parseDate format visit
  waiting : ∀ k http, p.visits k = some ⟨http, none⟩ → ∃ m, asked c parseDate format p k = some m
  futures : ∀ o ∈ p.account.futures, ∃ k, o = .http k ∧ asked c parseDate format p k =
    some .registerUserPort

/-- A response to a request that waits. -/
theorem Fine.respond {p : State A} (h : Fine c parseDate format p) {k : ℕ} {m : Msg}
    {response : Response} (hk : asked c parseDate format p k = some m)
    (hr : response = .json (apiRespond .timeout) none ∨
      ∃ a, Answers c.userHomeDir m a ∧ response = .json (apiRespond (.success a)) none) :
    Fine c parseDate format (p.respond k response) := by
  refine ⟨fun j visit hvisit => ?_, fun j http hvisit => ?_, fun o ho => ?_⟩
  · rcases visits_respond p k response j with hsame | ⟨http, rfl, hold, hnew⟩
    · rw [hsame] at hvisit
      exact h.responded j visit hvisit
    · rw [hnew] at hvisit
      obtain rfl := Option.some.inj hvisit
      intro r hsome
      obtain rfl := Option.some.inj hsome
      unfold asked at hk
      rw [hold] at hk
      dsimp only at hk ⊢
      rcases hintent : intent parseDate format c.uid http with r | m'
      · rw [hintent] at hk
        cases hk
      · rw [hintent] at hk
        obtain rfl := Option.some.inj hk
        exact hr
  · rw [asked_respond]
    rcases visits_respond p k response j with hsame | ⟨http', -, -, hnew⟩
    · rw [hsame] at hvisit
      exact h.waiting j http hvisit
    · rw [hnew] at hvisit
      cases hvisit
  · rw [account_respond] at ho
    rw [asked_respond]
    exact h.futures o ho

end Questions

/-! ### What is kept -/

section Kept

variable {p p' : State A} {e : Mail} {out : List Mail}

theorem webManager_fits (he : Fits c.userHomeDir (asked c parseDate format p) e)
    (hw : e.receiver = .webManager) :
    ∀ x ∈ webManager e, Fits c.userHomeDir (asked c parseDate format p) x := by
  intro x hx
  unfold webManager at hx
  cases he with
  | question to' hhttp hport h =>
    dsimp only at hx
    split at hx
    · cases hx
    · obtain rfl := List.mem_singleton.mp hx
      exact .question .accountManager (by simp) (by simp) h
  | answer sender h ha => cases hw
  | portQuestion h => cases hw
  | port h => cases hw
  | store to' hto =>
    obtain rfl := List.mem_singleton.mp hx
    exact .store .accountManager (.inr rfl)

theorem systemManager_fits (m : Meets) (he : Fits c.userHomeDir (asked c parseDate format p) e)
    (hs : e.receiver = .systemManager) :
    ∀ x ∈ systemManager m e, Fits c.userHomeDir (asked c parseDate format p) x := by
  intro x hx
  unfold systemManager at hx
  cases he with
  | @question k m' to' hhttp hport h =>
    cases m' with
    | getAccountPriviledges =>
      dsimp only at hx
      split at hx
      · obtain rfl := List.mem_singleton.mp hx
        exact .answer _ h (.inl ⟨_, rfl⟩)
      · obtain rfl := List.mem_singleton.mp hx
        exact .answer _ h (.inr rfl)
    | registerDomain domain =>
      dsimp only at hx
      split at hx
      · next hnone =>
        rcases List.mem_cons.mp hx with rfl | hx
        · exact .store .webManager (.inl rfl)
        · obtain rfl := List.mem_singleton.mp hx
          exact .answer _ h ⟨m.getByName, by rw [hnone]⟩
      · next x' hsome =>
        obtain rfl := List.mem_singleton.mp hx
        exact .answer _ h ⟨m.getByName, by rw [hsome]⟩
    | getUserProcesses uid =>
      obtain rfl := List.mem_singleton.mp hx
      exact .answer _ h ⟨_, rfl⟩
    | systemRegisterUserPort => exact absurd rfl (asked_ne h).1
    | _ => cases hx
  | answer sender h ha => cases hs
  | @portQuestion k h =>
    dsimp only at hx
    split at hx
    · cases hx
    · obtain rfl := List.mem_singleton.mp hx
      exact .port h
  | port h => cases hs
  | store to' hto => cases hx

/-- An answer to a question. -/
theorem reply_fits {k : ℕ} {m : Msg} {a : Answer} {x : Mail}
    (hk : asked c parseDate format p k = some m) (hsender : e.sender = .http k)
    (ha : Answers c.userHomeDir m a) (hx : x ∈ reply e a) :
    Fits c.userHomeDir (asked c parseDate format p) x := by
  obtain rfl := List.mem_singleton.mp hx
  rw [hsender]
  exact .answer e.receiver hk ha

theorem forward_fits {k : ℕ} {m : Msg} {to' : Actor} {x : Mail}
    (hk : asked c parseDate format p k = some m) (hsender : e.sender = .http k) (hm : e.message = m)
    (hhttp : ∀ j, to' ≠ .http j) (hport : ∀ o, to' ≠ .futurePort o) (hx : x ∈ forward to' e) :
    Fits c.userHomeDir (asked c parseDate format p) x := by
  obtain rfl := List.mem_singleton.mp hx
  rw [hsender, hm]
  exact .question to' hhttp hport hk

/-- What the account manager makes of a question. -/
theorem accountManager_question {m : Meets} {k : ℕ} {q : Msg} {a : Account A}
    (hk : asked c parseDate format p k = some q) (hsender : e.sender = .http k) (hq : e.message = q)
    (h : accountManager c m e p.account = (a, out)) :
    (∀ x ∈ out, Fits c.userHomeDir (asked c parseDate format p) x) ∧
      ∀ o ∈ a.futures, o ∈ p.account.futures ∨ o = .http k ∧ q = .registerUserPort := by
  have hsame : ∀ {a' : Account A}, a'.futures = p.account.futures →
      ∀ o ∈ a'.futures, o ∈ p.account.futures ∨ o = .http k ∧ q = .registerUserPort := by
    intro a' ha' o ho
    rw [ha'] at ho
    exact .inl ho
  have hreply : ∀ {b : Answer}, Answers c.userHomeDir q b → ∀ x ∈ reply e b,
      Fits c.userHomeDir (asked c parseDate format p) x :=
        fun hb x hx => reply_fits hk hsender hb hx
  have hforward : ∀ {to' : Actor}, (∀ j, to' ≠ .http j) → (∀ o, to' ≠ .futurePort o) →
    ∀ x ∈ forward to' e,
      Fits c.userHomeDir (asked c parseDate format p) x := fun hhttp hport x hx =>
    forward_fits hk hsender hq hhttp hport hx
  have hsystem : ∀ x ∈ systemBase c e, Fits c.userHomeDir (asked c parseDate format p) x := by
    intro x hx
    unfold systemBase at hx
    split_ifs at hx
    · cases hx
    · exact hforward (by simp) (by simp) x hx
  unfold accountManager at h
  rw [hq] at h
  cases q with
  | restartAccountManager | moshSession | getAccountPriviledges =>
    obtain ⟨rfl, rfl⟩ := Prod.mk.inj h
    exact ⟨hforward (by simp) (by simp), hsame rfl⟩
  | getUserProcesses _ | registerDomain _ | systemRegisterUserPort =>
    obtain ⟨rfl, rfl⟩ := Prod.mk.inj h
    exact ⟨hsystem, hsame rfl⟩
  | spawnServices | getStoredServices | terminateServices | storeServices | showAvailableServices
    | spawnService _
  | terminateService _ | port _ | answer _ | storeUserDomain _ =>
    obtain ⟨rfl, rfl⟩ := Prod.mk.inj h
    exact ⟨by simp, hsame rfl⟩
  | cloneIgniterForUser igniterName userIgniterNewName =>
    obtain ⟨rfl, rfl⟩ := Prod.mk.inj h
    exact ⟨hreply ⟨_, rfl⟩, hsame rfl⟩
  | registerAccount userName =>
    obtain ⟨rfl, rfl⟩ := Prod.mk.inj h
    exact ⟨hreply rfl, hsame rfl⟩
  | getRegisteredDomains =>
    obtain ⟨rfl, rfl⟩ := Prod.mk.inj h
    exact ⟨hreply ⟨_, rfl⟩, hsame rfl⟩
  | getServicePort serviceName =>
    obtain ⟨rfl, rfl⟩ := Prod.mk.inj h
    exact ⟨hreply ⟨_, rfl⟩, hsame rfl⟩
  | getServiceStatus serviceName =>
    obtain ⟨rfl, rfl⟩ := Prod.mk.inj h
    exact ⟨hreply ⟨_, rfl⟩, hsame rfl⟩
  | createFileWatch fileName flags serviceName =>
    obtain ⟨rfl, rfl⟩ := Prod.mk.inj h
    refine ⟨fun x hx => ?_, hsame rfl⟩
    obtain ⟨y, hy, hx⟩ := List.mem_flatMap.mp hx
    have hmem := List.mem_map_of_mem (f := ofFileWatch) hy
    rw [createFileWatch_answer, String.toList_ofList] at hmem
    exact hreply ⟨_, List.mem_singleton.mp hmem⟩ x hx
  | destroyFileWatch fileName =>
    obtain ⟨rfl, rfl⟩ := Prod.mk.inj h
    refine ⟨fun x hx => ?_, hsame rfl⟩
    obtain ⟨y, hy, hx⟩ := List.mem_flatMap.mp hx
    have hmem := List.mem_map_of_mem (f := ofFileWatch) hy
    rw [destroyFileWatch_answer, String.toList_ofList] at hmem
    exact hreply (List.mem_singleton.mp hmem) x hx
  | getUserPorts =>
    obtain ⟨rfl, rfl⟩ := Prod.mk.inj h
    exact ⟨hreply ⟨_, rfl⟩, hsame rfl⟩
  | removeAllUserPorts =>
    obtain ⟨rfl, rfl⟩ := Prod.mk.inj h
    exact ⟨hreply rfl, hsame rfl⟩
  | registerUserPort =>
    dsimp only at h
    split_ifs at h with hheadless
    · split at h
      · obtain ⟨rfl, rfl⟩ := Prod.mk.inj h
        exact ⟨by simp, hsame rfl⟩
      · obtain ⟨rfl, rfl⟩ := Prod.mk.inj h
        exact ⟨hreply ⟨_, rfl⟩, hsame rfl⟩
    · obtain ⟨rfl, rfl⟩ := Prod.mk.inj h
      refine ⟨fun x hx => ?_, fun o ho => ?_⟩
      · obtain rfl := List.mem_singleton.mp hx
        rw [hsender]
        exact .portQuestion hk
      · rcases List.mem_cons.mp ho with rfl | ho
        · exact .inr ⟨hsender, rfl⟩
        · exact .inl ho

theorem userBoot_fits (he : Fits c.userHomeDir (asked c parseDate format p) e)
    (hu : e.receiver = .userBoot) :
    ∀ x ∈ userBoot e, Fits c.userHomeDir (asked c parseDate format p) x := by
  intro x hx
  unfold userBoot at hx
  cases he with
  | @question k m to' hhttp hport h =>
    cases m with
    | restartAccountManager => exact reply_fits h rfl rfl hx
    | _ => cases hx
  | answer sender h ha => cases hu
  | portQuestion h => cases hu
  | port h => cases hu
  | store to' hto => rcases hto with rfl | rfl <;> cases hu

/-- Another account with the same or fewer waiting senders, or one more that asks for a port. -/
theorem Fine.account {a : Account A} (h : Fine c parseDate format p)
    (ha : ∀ o ∈ a.futures, o ∈ p.account.futures ∨
      ∃ k, o = .http k ∧ asked c parseDate format p k = some .registerUserPort) :
    Fine c parseDate format { p with account := a } := by
  refine ⟨h.responded, h.waiting, fun o ho => ?_⟩
  rcases ha o ho with hold | hnew
  · exact h.futures o hold
  · exact hnew

/-- What is said of messages, in one state. -/
abbrev Suits (c : Settings A) (parseDate : Text → Option ℤ) (format : ℤ → Text) (p : State A)
    (e : Mail) : Prop :=
  Fits c.userHomeDir (asked c parseDate format p) e

theorem receive_keeps {m : Meets} (hp : Fine c parseDate format p)
    (he : Suits c parseDate format p e) (h : receive c m e p = (p', out)) :
    Keeps (Fine c parseDate format) (Suits c parseDate format) p p' out := by
  have hsame : ∀ {out' : List Mail}, (∀ x ∈ out', Suits c parseDate format p x) →
      Keeps (Fine c parseDate format) (Suits c parseDate format) p p out' :=
    fun hout => ⟨hp, hout, fun x hx => hx⟩
  unfold receive at h
  rcases hr : e.receiver with _ | _ | _ | _ | _ | _ | k | o
  · rw [hr] at h
    obtain ⟨rfl, rfl⟩ := Prod.mk.inj h
    exact hsame (webManager_fits he hr)
  · rw [hr] at h
    obtain ⟨rfl, rfl⟩ := Prod.mk.inj h
    cases he with
    | @question k q to' hhttp hport hk =>
      obtain ⟨hout, hfutures⟩ := accountManager_question (m := m) (e := ⟨to', .http k, q⟩)
        hk rfl rfl rfl
      refine ⟨hp.account fun o ho => ?_, hout, fun x hx => hx⟩
      rcases hfutures o ho with hold | ⟨rfl, rfl⟩
      · exact .inl hold
      · exact .inr ⟨k, rfl, hk⟩
    | answer sender hk ha => cases hr
    | portQuestion hk => cases hr
    | port hk => cases hr
    | store to' hto => exact ⟨hp.account fun o ho => .inl ho, by rintro x ⟨⟩, fun x hx => hx⟩
  · rw [hr] at h
    obtain ⟨rfl, rfl⟩ := Prod.mk.inj h
    exact hsame (systemManager_fits m he hr)
  · rw [hr] at h
    obtain ⟨rfl, rfl⟩ := Prod.mk.inj h
    exact hsame (userBoot_fits he hr)
  · rw [hr] at h
    obtain ⟨rfl, rfl⟩ := Prod.mk.inj h
    exact hsame (by simp)
  · rw [hr] at h
    obtain ⟨rfl, rfl⟩ := Prod.mk.inj h
    exact hsame (by simp)
  · rw [hr] at h
    cases he with
    | question to' hhttp hport hk => exact absurd hr (hhttp k)
    | @answer j q a sender hk ha =>
      obtain rfl := Actor.http.inj hr
      obtain ⟨rfl, rfl⟩ := Prod.mk.inj h
      refine ⟨hp.respond hk (.inr ⟨a, ha, rfl⟩), by simp, fun x hx => ?_⟩
      unfold Suits
      rw [asked_respond]
      exact hx
    | portQuestion hk => cases hr
    | port hk => cases hr
    | store to' hto => rcases hto with rfl | rfl <;> cases hr
  · rw [hr] at h
    obtain ⟨rfl, rfl⟩ := Prod.mk.inj h
    cases he with
    | question to' hhttp hport hk => exact absurd hr (hport o)
    | answer sender hk ha => cases hr
    | portQuestion hk => cases hr
    | @port j number hk =>
      obtain rfl := Actor.futurePort.inj hr
      unfold futurePort
      dsimp only
      split_ifs with ho
      · refine ⟨hp.account fun o' ho' => .inl (List.mem_of_mem_erase ho'), fun x hx => ?_,
        fun x hx => hx⟩
        obtain rfl := List.mem_singleton.mp hx
        exact .answer _ hk ⟨_, rfl⟩
      · exact hsame (by simp)
    | store to' hto => rcases hto with rfl | rfl <;> cases hr

/-- A new visit. -/
theorem visits_update {k j : ℕ} {visit visit' : Visit} (hnew : p.visits k = none)
    (hj : p.visits j = some visit') :
    Function.update p.visits k (some visit) j = some visit' := by
  have hne : j ≠ k := by
    rintro rfl
    rw [hnew] at hj
    cases hj
  rw [Function.update_of_ne hne, hj]

theorem asked_visit {k : ℕ} {visit : Visit} (hnew : p.visits k = none) {j : ℕ} {m : Msg}
    (h : asked c parseDate format p j = some m) :
    asked c parseDate format { p with visits := Function.update p.visits k (some visit) }
      j = some m := by
  obtain ⟨visit', hj, hintent⟩ := asked_eq_some.mp h
  exact asked_eq_some.mpr ⟨visit', visits_update hnew hj, hintent⟩

theorem Fine.visit {k : ℕ} {visit : Visit} (h : Fine c parseDate format p)
    (hnew : p.visits k = none) (hvisit : Responded c parseDate format visit)
    (hwaits : visit.response = none → ∃ m, intent parseDate format c.uid visit.http = .ask m) :
    Fine c parseDate format { p with visits := Function.update p.visits k (some visit) } := by
  have hcases : ∀ {j visit'}, Function.update p.visits k (some visit) j = some visit' →
      j = k ∧ visit' = visit ∨ p.visits j = some visit' := by
    intro j visit' hj
    by_cases hjk : j = k
    · subst hjk
      rw [Function.update_self] at hj
      exact .inl ⟨rfl, (Option.some.inj hj).symm⟩
    · rw [Function.update_of_ne hjk] at hj
      exact .inr hj
  refine ⟨fun j visit' hj => ?_, fun j http hj => ?_, fun o ho => ?_⟩
  · rcases hcases hj with ⟨rfl, rfl⟩ | hj
    · exact hvisit
    · exact h.responded j visit' hj
  · rcases hcases hj with ⟨rfl, rfl⟩ | hold
    · obtain ⟨m, hm⟩ := hwaits rfl
      exact ⟨m, asked_eq_some.mpr ⟨_, hj, hm⟩⟩
    · obtain ⟨m, hm⟩ := h.waiting j http hold
      exact ⟨m, asked_visit hnew hm⟩
  · obtain ⟨j, rfl, hj⟩ := h.futures o ho
    exact ⟨j, rfl, asked_visit hnew hj⟩

theorem holds_start {a : Account A} (ha : a.futures = []) :
    Holds (Fine c parseDate format) (Suits c parseDate format) (start a) := by
  have hnone : ∀ k, (start a).state.visits k = none := fun _ => rfl
  have hempty : ∀ e ∈ (start a).flight, Suits c parseDate format (start a).state e := by
    intro e he
    cases he
  refine ⟨⟨fun k visit h => ?_, fun k http h => ?_, fun o ho => ?_⟩, hempty⟩
  · rw [hnone] at h
    cases h
  · rw [hnone] at h
    cases h
  have hnil : o ∈ a.futures := ho
  rw [ha] at hnil
  cases hnil

end Kept

/-! ### Visits stay -/

section Visits

variable {p p' : State A} {e : Mail} {out : List Mail}

/-- The requests that there are stay, with what they are. -/
def Extends (p p' : State A) : Prop :=
  ∀ k visit, p.visits k = some visit → ∃ response, p'.visits k = some ⟨visit.http, response⟩

theorem extends_respond (p : State A) (k : ℕ) (response : Response) :
    Extends p (p.respond k response) := by
  intro j visit hj
  rcases visits_respond p k response j with hsame | ⟨http, -, hold, hnew⟩
  · exact ⟨visit.response, by rw [hsame, hj]⟩
  · rw [hold] at hj
    obtain rfl := Option.some.inj hj
    exact ⟨some response, hnew⟩

theorem extends_receive {m : Meets} (h : receive c m e p = (p', out)) : Extends p p' := by
  have hsame : ∀ {q : State A}, q.visits = p.visits → Extends p q := by
    intro q hq k visit hk
    exact ⟨visit.response, by rw [hq, hk]⟩
  unfold receive at h
  cases hr : e.receiver with
  | http k =>
    rw [hr] at h
    dsimp only at h
    split at h
    · obtain ⟨rfl, -⟩ := Prod.mk.inj h
      exact extends_respond p k _
    · obtain ⟨rfl, -⟩ := Prod.mk.inj h
      exact hsame rfl
  | _ =>
    rw [hr] at h
    obtain ⟨rfl, -⟩ := Prod.mk.inj h
    exact hsame rfl

theorem extends_input [DecidableEq A] [Neodatis SvdFileEventBinding]
    (h : Input c parseDate format p p' out) :
    Extends p p' := by
  cases h with
  | respond hnew h => exact fun j visit hj => ⟨visit.response, visits_update hnew hj⟩
  | ask hnew h => exact fun j visit hj => ⟨visit.response, visits_update hnew hj⟩
  | timeout k => exact extends_respond p k _
  | noPort h => exact fun j visit hj => ⟨visit.response, hj⟩
  | watch e hcreate hdestroy => exact fun j visit hj => ⟨visit.response, hj⟩

end Visits

/-! ### Runs -/

section Runs

variable [DecidableEq A] [Neodatis SvdFileEventBinding] {p p' : State A} {e : Mail}
    {out : List Mail}
  {n n' : Net (State A) Actor Msg}

theorem input_keeps (hp : Fine c parseDate format p) (h : Input c parseDate format p p' out) :
    Keeps (Fine c parseDate format) (Suits c parseDate format) p p' out := by
  cases h with
  | @respond k http response hnew h =>
    refine ⟨hp.visit hnew ?_ (by simp), by simp, fun x hx =>
      Fits.mono (fun j m => asked_visit hnew) hx⟩
    intro response' hsome
    obtain rfl := Option.some.inj hsome
    rw [h]
  | @ask k http m hnew h =>
    refine ⟨hp.visit hnew (fun response hsome => nomatch hsome) (fun _ => ⟨m, h⟩), fun x hx => ?_,
      fun x hx => Fits.mono (fun j m => asked_visit hnew) hx⟩
    obtain rfl := List.mem_singleton.mp hx
    exact .question .webManager (by simp) (by simp)
      (asked_eq_some.mpr ⟨_, Function.update_self _ _ _, h⟩)
  | timeout k =>
    have hsuits : ∀ x, Suits c parseDate format p x →
        Suits c parseDate format (p.respond k (.json (apiRespond .timeout) none)) x := by
      intro x hx
      unfold Suits
      rw [asked_respond]
      exact hx
    refine ⟨?_, by simp, hsuits⟩
    rcases hvisit : p.visits k with _ | ⟨http, _ | response⟩
    · unfold State.respond
      rw [hvisit]
      exact hp
    · obtain ⟨m, hm⟩ := hp.waiting k http hvisit
      exact hp.respond hm (.inl rfl)
    · unfold State.respond
      rw [hvisit]
      exact hp
  | @noPort originSender h =>
    refine ⟨hp.account fun o ho => .inl (List.mem_of_mem_erase ho), fun x hx => ?_, fun x hx => hx⟩
    obtain rfl := List.mem_singleton.mp hx
    obtain ⟨k, rfl, hk⟩ := hp.futures _ h
    exact .answer _ hk ⟨_, rfl⟩
  | watch e hcreate hdestroy => exact ⟨hp.account fun o ho => .inl ho, by simp, fun x hx => hx⟩

theorem handle_keeps (e : Mail) (p p' : State A) (out : List Mail) (hp : Fine c parseDate format p)
    (he : Suits c parseDate format p e) (h : (system c parseDate format).handle e p p' out) :
    Keeps (Fine c parseDate format) (Suits c parseDate format) p p' out := by
  obtain ⟨m, -, hreceive⟩ := h
  exact receive_keeps hp he hreceive

theorem holds_of_reaches {a : Account A} (ha : a.futures = [])
    (h : Reaches (system c parseDate format) (start a) n) :
    Holds (Fine c parseDate format) (Suits c parseDate format) n :=
  h.invariant handle_keeps (fun _ _ _ => input_keeps) (holds_start ha)

/-- **A request gets what its handler responds, or an answer to its own question,
or it is timed out.** -/
theorem response_of_question {a : Account A} (ha : a.futures = [])
    (h : Reaches (system c parseDate format) (start a) n) {k : ℕ} {http : Http}
    {response : Response} (hk : n.state.visits k = some ⟨http, some response⟩) :
    intent parseDate format c.uid http = .respond response ∨
      ∃ m, intent parseDate format c.uid http = .ask m ∧
      (response = .json (apiRespond .timeout) none ∨
        ∃ b, Answers c.userHomeDir m b ∧ response = .json (apiRespond (.success b)) none) := by
  have hresponded := (holds_of_reaches ha h).1.responded k _ hk response rfl
  dsimp only at hresponded
  rcases hintent : intent parseDate format c.uid http with r | m
  · rw [hintent] at hresponded
    exact .inl (congrArg Handled.respond hresponded.symm)
  · rw [hintent] at hresponded
    exact .inr ⟨m, rfl, hresponded⟩

end Runs

theorem response_of_question_domainsResponse :
    intent (fun _ => none) (fun _ => []) settings.uid user = .respond domainsResponse ∨
      ∃ m, intent (fun _ => none) (fun _ => []) settings.uid user = .ask m ∧
        (domainsResponse = .json (apiRespond .timeout) none ∨
          ∃ b, Answers settings.userHomeDir m b ∧
            domainsResponse = .json (apiRespond (.success b)) none) :=
  response_of_question (a := account) rfl reaches_domainsResponse (k := 0) rfl

/-! ### One answer -/

section Once

variable {k : ℕ} {p p' : State A} {e : Mail} {out : List Mail}

/-- One for an answer to the request on its way, and one for its question. -/
def mailWeight (k : ℕ) (e : Mail) : ℕ :=
  match e.receiver with
  | .http j => if j = k then 1 else 0
  | _ => if e.sender = .http k then 1 else 0

/-- One for a request that is still to come, and one for a port that it waits for. -/
def stateWeight (k : ℕ) (p : State A) : ℕ :=
  (if p.visits k = none then 1 else 0) + p.account.futures.count (.http k)

theorem mailWeight_of_receiver (h : e.receiver = .http k) : mailWeight k e = 1 := by
  unfold mailWeight
  rw [h]
  exact if_pos rfl

theorem mailWeight_of_manager (h : ∀ j, e.receiver ≠ .http j) :
    mailWeight k e = if e.sender = .http k then 1 else 0 := by
  unfold mailWeight
  split
  · next j hj => exact absurd hj (h j)
  · rfl

/-- What comes from a manager. -/
theorem mailWeight_back {o s : Actor} (hs : s ≠ .http k) (m : Msg) :
    mailWeight k ⟨o, s, m⟩ = if o = .http k then 1 else 0 := by
  unfold mailWeight
  cases o with
  | http j => simp only [Actor.http.injEq]
  | _ =>
    dsimp only
    rw [if_neg hs, if_neg (by simp)]

/-- An answer weighs what its question did. -/
theorem weight_reply (h : ∀ j, e.receiver ≠ .http j) (a : Answer) :
    ((reply e a).map (mailWeight k)).sum = mailWeight k e := by
  rw [mailWeight_of_manager h]
  exact mailWeight_back (h k) _

theorem weight_forward {to' : Actor} (h : ∀ j, e.receiver ≠ .http j) (hto : ∀ j, to' ≠ .http j) :
    ((forward to' e).map (mailWeight k)).sum = mailWeight k e := by
  rw [mailWeight_of_manager h]
  exact mailWeight_of_manager (e := { e with receiver := to' }) hto

theorem weight_accountManager {m : Meets} {a a' : Account A} (he : e.receiver = .accountManager)
    (h : accountManager c m e a = (a', out)) :
    a'.futures.count (.http k) + (out.map (mailWeight k)).sum ≤
      a.futures.count (.http k) + mailWeight k e := by
  have hmanager : ∀ j, e.receiver ≠ .http j := by
    intro j hj
    rw [he] at hj
    cases hj
  have hnone : ∀ {a' : Account A} {out : List Mail}, a'.futures = a.futures → out = [] →
      a'.futures.count (.http k) + (out.map (mailWeight k)).sum ≤
        a.futures.count (.http k) + mailWeight k e := by
    rintro a' out ha rfl
    rw [ha]
    exact Nat.add_le_add_left (Nat.zero_le _) _
  have hreply : ∀ {a' : Account A} {b : Answer}, a'.futures = a.futures →
      a'.futures.count (.http k) + ((reply e b).map (mailWeight k)).sum ≤
        a.futures.count (.http k) + mailWeight k e := by
    intro a' b ha
    rw [ha]
    exact Nat.add_le_add_left (weight_reply hmanager b).le _
  have hforward : ∀ {to' : Actor}, (∀ j, to' ≠ .http j) → a.futures.count (.http k) +
      ((forward to' e).map (mailWeight k)).sum ≤ a.futures.count (.http k) + mailWeight k e :=
    fun hto => Nat.add_le_add_left (weight_forward hmanager hto).le _
  have hsystem : a.futures.count (.http k) + ((systemBase c e).map (mailWeight k)).sum ≤
      a.futures.count (.http k) + mailWeight k e := by
    unfold systemBase
    split_ifs
    · exact hnone rfl rfl
    · exact hforward (by simp)
  have hwatch : ∀ {a' : Account A} {rs : List FileWatch.Reply} {b : Answer},
    a'.futures = a.futures →
      rs.map ofFileWatch = [b] →
      a'.futures.count (.http k) +
          ((rs.flatMap fun r => reply e (ofFileWatch r)).map (mailWeight k)).sum ≤
        a.futures.count (.http k) + mailWeight k e := by
    intro a' rs b ha hrs
    have hone : rs.flatMap (fun r => reply e (ofFileWatch r)) = reply e b := by
      rw [← List.flatMap_map, hrs, List.flatMap_singleton]
    rw [hone]
    exact hreply ha
  unfold accountManager at h
  cases hm : e.message with
  | restartAccountManager | moshSession | getAccountPriviledges =>
    rw [hm] at h
    obtain ⟨rfl, rfl⟩ := Prod.mk.inj h
    exact hforward (by simp)
  | getUserProcesses _ | registerDomain _ | systemRegisterUserPort =>
    rw [hm] at h
    obtain ⟨rfl, rfl⟩ := Prod.mk.inj h
    exact hsystem
  | spawnServices | getStoredServices | terminateServices | storeServices | showAvailableServices
    | spawnService _
  | terminateService _ | port _ | answer _ | storeUserDomain _ =>
    rw [hm] at h
    obtain ⟨rfl, rfl⟩ := Prod.mk.inj h
    exact hnone rfl rfl
  | cloneIgniterForUser _ _ | registerAccount _ | getRegisteredDomains | getServicePort _
  | getServiceStatus _ | getUserPorts | removeAllUserPorts =>
    rw [hm] at h
    obtain ⟨rfl, rfl⟩ := Prod.mk.inj h
    exact hreply rfl
  | createFileWatch fileName flags serviceName =>
    rw [hm] at h
    obtain ⟨rfl, rfl⟩ := Prod.mk.inj h
    exact hwatch rfl (createFileWatch_answer ..)
  | destroyFileWatch fileName =>
    rw [hm] at h
    obtain ⟨rfl, rfl⟩ := Prod.mk.inj h
    exact hwatch rfl (destroyFileWatch_answer ..)
  | registerUserPort =>
    rw [hm] at h
    dsimp only at h
    split_ifs at h with hheadless
    · split at h
      · obtain ⟨rfl, rfl⟩ := Prod.mk.inj h
        exact hnone rfl rfl
      · obtain ⟨rfl, rfl⟩ := Prod.mk.inj h
        exact hreply rfl
    · -- the question waits for its port from now on
      obtain ⟨rfl, rfl⟩ := Prod.mk.inj h
      have hask :
          mailWeight k ⟨.systemManager, .futurePort e.sender, .systemRegisterUserPort⟩ = 0 := by
        rw [mailWeight_of_manager (by simp)]
        exact if_neg (by simp)
      rw [mailWeight_of_manager hmanager, List.count_cons, List.map_singleton,
        List.sum_singleton, hask]
      simp only [beq_iff_eq]
      exact Nat.le_refl _

theorem weight_systemManager {m : Meets} (he : e.receiver = .systemManager) :
    ((systemManager m e).map (mailWeight k)).sum ≤ mailWeight k e := by
  have hmanager : ∀ j, e.receiver ≠ .http j := by
    intro j hj
    rw [he] at hj
    cases hj
  unfold systemManager
  split
  · split
    · exact (weight_reply hmanager _).le
    · exact (weight_reply hmanager _).le
  · split
    · rw [List.map_cons, List.sum_cons, mailWeight_back (by simp), if_neg (by simp), Nat.zero_add]
      exact (weight_reply hmanager _).le
    · exact (weight_reply hmanager _).le
  · exact (weight_reply hmanager _).le
  · split
    · exact Nat.zero_le _
    · rw [List.map_singleton, List.sum_singleton, mailWeight_back (by simp),
        mailWeight_of_manager hmanager]
  · exact Nat.zero_le _

theorem visits_respond_eq_none (k j : ℕ) (response : Response) :
    (p.respond j response).visits k = none ↔ p.visits k = none := by
  rcases visits_respond p j response k with hsame | ⟨http, -, hold, hnew⟩
  · rw [hsame]
  · rw [hold, hnew]
    simp

theorem stateWeight_respond (k j : ℕ) (response : Response) :
    stateWeight k (p.respond j response) = stateWeight k p := by
  unfold stateWeight
  rw [account_respond]
  simp only [visits_respond_eq_none]

/-- Who waits for a port, before and after an answer. -/
theorem weight_erase {o : Actor} {futures : List Actor} (ho : o ∈ futures) (a : Answer) :
    (futures.erase o).count (.http k) + mailWeight k ⟨o, .accountManager, .answer a⟩ =
      futures.count (.http k) := by
  rw [mailWeight_back (by simp), List.count_erase]
  have hpos : 0 < futures.count o := List.count_pos_iff.mpr ho
  by_cases hk : o = .http k
  · subst hk
    rw [if_pos (by simp), if_pos rfl]
    omega
  · rw [if_neg (by simpa using hk), if_neg hk]
    omega

theorem weight_futurePort {m : Meets} {o : Actor} {a a' : Account A}
    (h : futurePort m o e a = (a', out)) :
    a'.futures.count (.http k) + (out.map (mailWeight k)).sum ≤ a.futures.count
      (.http k) + mailWeight k e := by
  unfold futurePort at h
  split at h
  · split_ifs at h with ho
    · obtain ⟨rfl, rfl⟩ := Prod.mk.inj h
      rw [List.map_singleton, List.sum_singleton, weight_erase ho]
      exact Nat.le_add_right _ _
    · obtain ⟨rfl, rfl⟩ := Prod.mk.inj h
      exact Nat.le_add_right _ _
  · obtain ⟨rfl, rfl⟩ := Prod.mk.inj h
    exact Nat.le_add_right _ _

/-- What is kept of the account decides. -/
theorem stateWeight_account {a : Account A}
    (h : a.futures.count (.http k) + (out.map (mailWeight k)).sum ≤
      p.account.futures.count (.http k) + mailWeight k e) :
    stateWeight k { p with account := a } + (out.map (mailWeight k)).sum ≤
      stateWeight k p + mailWeight k e := by
  unfold stateWeight
  rw [Nat.add_assoc, Nat.add_assoc]
  exact Nat.add_le_add_left h _

theorem weight_receive {m : Meets} (h : receive c m e p = (p', out)) :
    stateWeight k p' + (out.map (mailWeight k)).sum ≤ stateWeight k p + mailWeight k e := by
  unfold receive at h
  rcases hr : e.receiver with _ | _ | _ | _ | _ | _ | j | o
  · rw [hr] at h
    obtain ⟨rfl, rfl⟩ := Prod.mk.inj h
    refine Nat.add_le_add_left ?_ _
    unfold webManager
    split
    · exact Nat.zero_le _
    · exact (weight_forward (by simp [hr]) (by simp)).le
  · rw [hr] at h
    obtain ⟨rfl, rfl⟩ := Prod.mk.inj h
    exact stateWeight_account (weight_accountManager hr rfl)
  · rw [hr] at h
    obtain ⟨rfl, rfl⟩ := Prod.mk.inj h
    exact Nat.add_le_add_left (weight_systemManager hr) _
  · rw [hr] at h
    obtain ⟨rfl, rfl⟩ := Prod.mk.inj h
    refine Nat.add_le_add_left ?_ _
    unfold userBoot
    split
    · exact (weight_reply (by simp [hr]) _).le
    · exact Nat.zero_le _
  · rw [hr] at h
    obtain ⟨rfl, rfl⟩ := Prod.mk.inj h
    exact Nat.add_le_add_left (Nat.zero_le _) _
  · rw [hr] at h
    obtain ⟨rfl, rfl⟩ := Prod.mk.inj h
    exact Nat.add_le_add_left (Nat.zero_le _) _
  · rw [hr] at h
    dsimp only at h
    split at h
    · obtain ⟨rfl, rfl⟩ := Prod.mk.inj h
      rw [stateWeight_respond]
      exact Nat.add_le_add_left (Nat.zero_le _) _
    · obtain ⟨rfl, rfl⟩ := Prod.mk.inj h
      exact Nat.add_le_add_left (Nat.zero_le _) _
  · rw [hr] at h
    obtain ⟨rfl, rfl⟩ := Prod.mk.inj h
    exact stateWeight_account (weight_futurePort rfl)

variable [DecidableEq A] [Neodatis SvdFileEventBinding]

theorem weight_input (h : Input c parseDate format p p' out) :
    stateWeight k p' + (out.map (mailWeight k)).sum ≤ stateWeight k p := by
  have hvisit : ∀ {j : ℕ} (visit : Visit), p.visits j = none →
      stateWeight k { p with visits := Function.update p.visits j (some visit) } +
        (if j = k then 1 else 0) =
        stateWeight k p := by
    intro j visit hnew
    unfold stateWeight
    dsimp only
    by_cases hj : k = j
    · subst hj
      have hsome : Function.update p.visits k (some visit) k ≠ none := by simp
      rw [if_neg hsome, if_pos rfl, if_pos hnew]
      omega
    · have hsame : Function.update p.visits j (some visit) k = none ↔ p.visits k = none := by
        rw [Function.update_of_ne hj]
      simp only [hsame, if_neg (Ne.symm hj), Nat.add_zero]
  cases h with
  | @respond j http response hnew h =>
    have := hvisit ⟨http, some response⟩ hnew
    rw [List.map_nil, List.sum_nil]
    omega
  | @ask j http m hnew h =>
    have := hvisit ⟨http, none⟩ hnew
    rw [List.map_singleton, List.sum_singleton, mailWeight_of_manager (by simp)]
    simp only [Actor.http.injEq]
    omega
  | timeout j => exact (stateWeight_respond k j _).le
  | @noPort o h =>
    unfold stateWeight
    rw [List.map_singleton, List.sum_singleton, Nat.add_assoc, weight_erase h]
  | watch e hcreate hdestroy => exact Nat.le_refl _

/-- A message that is handled, or lost, and what comes from outside leave of a request
no more than there was. -/
theorem weight_of_reaches {n n' : Net (State A) Actor Msg}
    (h : Reaches (system c parseDate format) n n') :
    weight (stateWeight k) (mailWeight k) n' ≤ weight (stateWeight k) (mailWeight k) n := by
  refine h.weight_le ?_ fun _ _ _ => weight_input
  rintro e s s' out ⟨m, -, hreceive⟩
  exact weight_receive hreceive

/-- **A request is in one place.** It is still to come, or its question is on its way, or it waits
for a port, or an answer is on its way to it, and never twice. -/
theorem weight_le_one {a : Account A} {n : Net (State A) Actor Msg} (ha : a.futures = [])
    (h : Reaches (system c parseDate format) (start a) n) :
    weight (stateWeight k) (mailWeight k) n ≤ 1 := by
  have hstart : weight (stateWeight k) (mailWeight k) (start a) = 1 := by
    unfold weight stateWeight start
    rw [ha]
    rfl
  rw [← hstart]
  exact weight_of_reaches h

/-- **A request is answered once.** When an answer to it has been handled,
no other is on its way, then or later. -/
theorem answered_once {a : Account A} {s s' : State A} {pre post : List Mail}
    {n : Net (State A) Actor Msg} (ha : a.futures = [])
    (h : Reaches (system c parseDate format) (start a) ⟨s, pre ++ e :: post⟩)
    (he : e.receiver = .http k) (hhandle : (system c parseDate format).handle e s s' out)
    (h' : Reaches (system c parseDate format) ⟨s', pre ++ (post ++ out)⟩ n) :
    ∀ x ∈ n.flight, x.receiver ≠ .http k := by
  have hbefore := weight_le_one (k := k) ha h
  -- the answer is all that there is of the request, and nothing comes after it
  have hafter : stateWeight k s' = stateWeight k s ∧ out = [] := by
    obtain ⟨m, -, hreceive⟩ := hhandle
    unfold receive at hreceive
    rw [he] at hreceive
    dsimp only at hreceive
    split at hreceive
    · obtain ⟨rfl, rfl⟩ := Prod.mk.inj hreceive
      exact ⟨stateWeight_respond k k _, rfl⟩
    · obtain ⟨rfl, rfl⟩ := Prod.mk.inj hreceive
      exact ⟨rfl, rfl⟩
  have hlater := weight_of_reaches (k := k) h'
  obtain ⟨hsame, rfl⟩ := hafter
  unfold weight at hbefore hlater
  simp only [List.map_append, List.map_cons, List.map_nil, List.sum_append,
    List.sum_cons, List.sum_nil, mailWeight_of_receiver he, hsame] at hbefore hlater
  have hzero : (n.flight.map (mailWeight k)).sum = 0 := by omega
  intro x hx hk
  have hnone := List.sum_eq_zero_iff_forall_eq_nat.mp hzero _
    (List.mem_map_of_mem (f := mailWeight k) hx)
  rw [mailWeight_of_receiver hk] at hnone
  cases hnone

end Once

/-- Another request is on its way after the answer. -/
def another : Net (State Unit) Actor Msg :=
  ⟨{ visited (some domainsResponse) with
    visits := Function.update (visited (some domainsResponse)).visits 1 (some ⟨user, none⟩) },
    [⟨.webManager, .http 1, .getRegisteredDomains⟩]⟩

theorem step_another : Step panel ⟨visited (some domainsResponse), []⟩ another :=
  .input (.ask rfl rfl)

theorem answered_once_domainsResponse :
    Reaches panel (start account) another ∧ ∀ x ∈ another.flight, x.receiver ≠ .http 0 :=
  ⟨reaches_domainsResponse.tail step_another,
    answered_once (a := account) rfl reaches_answer rfl handle_answer (.single step_another)⟩

end ServeD.Web.PanelRuns
