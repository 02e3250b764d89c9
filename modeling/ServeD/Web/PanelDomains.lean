import ServeD.Web.PanelRuns

/-! # The domains of the account

* `domains_asked_for`: a domain of the account is one of its old ones, or a name that an authorized
  request to register it gave and the system manager found in order, in whatever order the messages
  come; and none is there twice. -/

namespace ServeD.Web.PanelDomains

open ServeD.Lib ServeD.Lib.Texts ServeD.Lib.Actors ServeD.Lib.ObjectStore
open ServeD.Api.Records ServeD.Db.Client ServeD.Db.Invariant
open ServeD.Managers ServeD.Managers.WebApi
open ServeD.Managers.Domains (validate)
open ServeD.Web.Panel ServeD.Web.PanelRuns

variable {A : Type} {c : Settings A} {parseDate : Text → Option ℤ} {format : ℤ → Text}

/-! ### The database -/

section Database

variable {db : DBClient SvdUserDomain} {new : Fresh} {domain : Text}

theorem userDomainRegistered_iff : userDomainRegistered db domain = true ↔
    domain ∈ domainNames db := by
  unfold userDomainRegistered domainNames classQueryCollection
  rw [AccountUtils.ite_not_isEmpty, List.mem_map]
  simp only [beq_iff_eq]

theorem wf_registerUserDomain (hw : WF db) (new : Fresh) (domain : Text) :
    WF (registerUserDomain db new domain) := by
  unfold registerUserDomain
  split_ifs
  · exact wf_saveNew hw _
  · exact hw

/-- A name that is there stays as it is, and another one comes last. -/
theorem domainNames_registerUserDomain (hw : WF db) (hnew : db.find new.uuid = none)
    (domain : Text) :
    domainNames (registerUserDomain db new domain) =
      if domain ∈ domainNames db then domainNames db else domainNames db ++ [domain] := by
  unfold registerUserDomain
  by_cases hd : domain ∈ domainNames db
  · rw [if_pos hd, userDomainRegistered_iff.mpr hd]
    rfl
  · have hfalse : userDomainRegistered db domain = false :=
      Bool.not_eq_true _ ▸ fun h => hd (userDomainRegistered_iff.mp h)
    rw [if_neg hd, hfalse]
    unfold domainNames classQueryCollection
    rw [Bool.not_false, if_pos rfl, objects_saveNew_none hw hnew, List.map_append]
    rfl

end Database

/-! ### What a message brings about -/

section Messages

variable {p p' : State A} {e : Mail} {out : List Mail}

theorem message_of_forward {to' : Actor} {x : Mail} (hx : x ∈ forward to' e) :
    x.message = e.message := by
  obtain rfl := List.mem_singleton.mp hx
  rfl

theorem message_of_reply {b : Answer} {x : Mail} (hx : x ∈ reply e b) : x.message = .answer b := by
  obtain rfl := List.mem_singleton.mp hx
  rfl

/-- The message is to be stored if the next one is. -/
def Stores (e x : Mail) : Prop := ∀ domain, x.message = .storeUserDomain domain →
    e.message = .storeUserDomain domain

theorem stores_forward {to' : Actor} {x : Mail} (hx : x ∈ forward to' e) : Stores e x :=
  fun _ hdomain => (message_of_forward hx).symm.trans hdomain

theorem stores_reply {b : Answer} {x : Mail} (hx : x ∈ reply e b) : Stores e x := by
  intro domain hdomain
  cases (message_of_reply hx).symm.trans hdomain

theorem stores_webManager {x : Mail} (hx : x ∈ webManager e) : Stores e x := by
  unfold webManager at hx
  split at hx
  · cases hx
  · exact stores_forward hx

theorem stores_systemBase {x : Mail} (hx : x ∈ systemBase c e) : Stores e x := by
  unfold systemBase at hx
  split_ifs at hx
  · cases hx
  · exact stores_forward hx

theorem stores_userBoot {x : Mail} (hx : x ∈ userBoot e) : Stores e x := by
  unfold userBoot at hx
  split at hx
  · exact stores_reply hx
  · cases hx

theorem stores_futurePort {m : Meets} {o : Actor} {a : Account A} {x : Mail}
    (hx : x ∈ (futurePort m o e a).2) :
    Stores e x := by
  unfold futurePort at hx
  split at hx
  · split_ifs at hx
    · obtain rfl := List.mem_singleton.mp hx
      exact fun domain hdomain => by cases hdomain
    · cases hx
  · cases hx

/-- The account manager stores domains and does not send them on. -/
theorem stores_accountManager {m : Meets} {a : Account A} {x : Mail}
    (hx : x ∈ (accountManager c m e a).2) :
    Stores e x := by
  unfold accountManager at hx
  cases hm : e.message with
  | createFileWatch fileName flags serviceName =>
    rw [hm] at hx
    obtain ⟨y, -, hx⟩ := List.mem_flatMap.mp hx
    exact stores_reply hx
  | destroyFileWatch fileName =>
    rw [hm] at hx
    obtain ⟨y, -, hx⟩ := List.mem_flatMap.mp hx
    exact stores_reply hx
  | registerUserPort =>
    rw [hm] at hx
    dsimp only at hx
    split_ifs at hx
    · split at hx
      · cases hx
      · exact stores_reply hx
    · obtain rfl := List.mem_singleton.mp hx
      exact fun domain hdomain => by cases hdomain
  | restartAccountManager | moshSession | getAccountPriviledges =>
    rw [hm] at hx
    exact stores_forward hx
  | getUserProcesses _ | registerDomain _ | systemRegisterUserPort =>
    rw [hm] at hx
    exact stores_systemBase hx
  | cloneIgniterForUser _ _ | registerAccount _ | getRegisteredDomains | getServicePort _
  | getServiceStatus _ | getUserPorts | removeAllUserPorts =>
    rw [hm] at hx
    exact stores_reply hx
  | _ =>
    rw [hm] at hx
    cases hx

/-- The system manager sends a domain on that it finds in order. -/
theorem message_of_systemManager {m : Meets} {x : Mail} (hx : x ∈ systemManager m e) {domain : Text}
    (hdomain : x.message = .storeUserDomain domain) :
    e.message = .registerDomain domain ∧ (validate m.getByName domain).1 = none := by
  have hreply : ∀ {b : Answer}, x ∉ reply e b := fun hx => by
    cases (message_of_reply hx).symm.trans hdomain
  unfold systemManager at hx
  split at hx
  · split at hx
    · exact absurd hx hreply
    · exact absurd hx hreply
  · next d hm =>
    split at hx
    · next hnone =>
      rcases List.mem_cons.mp hx with rfl | hx
      · obtain rfl := Msg.storeUserDomain.inj hdomain
        exact ⟨hm, hnone⟩
      · exact absurd hx hreply
    · exact absurd hx hreply
  · exact absurd hx hreply
  · split at hx
    · cases hx
    · obtain rfl := List.mem_singleton.mp hx
      cases hdomain
  · cases hx

/-- A domain that the system manager finds in order is sent on to be stored, and nothing else is. -/
theorem message_of_receive {m : Meets} (h : receive c m e p = (p', out)) {x : Mail} (hx : x ∈ out)
    {domain : Text} (hdomain : x.message = .storeUserDomain domain) :
    e.message = .storeUserDomain domain ∨
      e.receiver = .systemManager ∧ e.message = .registerDomain domain ∧
      (validate m.getByName domain).1 = none := by
  have hout : out = (receive c m e p).2 := by rw [h]
  rw [hout] at hx
  unfold receive at hx
  cases hr : e.receiver with
  | webManager =>
    rw [hr] at hx
    exact .inl (stores_webManager hx domain hdomain)
  | accountManager =>
    rw [hr] at hx
    exact .inl (stores_accountManager hx domain hdomain)
  | systemManager =>
    rw [hr] at hx
    exact .inr ⟨rfl, message_of_systemManager hx hdomain⟩
  | userBoot =>
    rw [hr] at hx
    exact .inl (stores_userBoot hx domain hdomain)
  | moshManager | notificationCenter =>
    rw [hr] at hx
    cases hx
  | http k =>
    rw [hr] at hx
    dsimp only at hx
    split at hx
    · cases hx
    · cases hx
  | futurePort o =>
    rw [hr] at hx
    exact .inl (stores_futurePort hx domain hdomain)

/-- One message is about the domains. -/
theorem domains_receive {m : Meets} (h : receive c m e p = (p', out)) :
    p'.account.domains = p.account.domains ∨
      ∃ domain, e.message = .storeUserDomain domain ∧
        p'.account.domains = registerUserDomain p.account.domains m.new domain := by
  unfold receive at h
  cases hr : e.receiver with
  | accountManager =>
    rw [hr] at h
    obtain ⟨rfl, -⟩ := Prod.mk.inj h
    unfold accountManager
    cases hm : e.message with
    | storeUserDomain domain => exact .inr ⟨domain, rfl, rfl⟩
    | registerUserPort =>
      refine .inl ?_
      dsimp only
      split_ifs
      · split <;> rfl
      · rfl
    | _ => exact .inl rfl
  | http k =>
    rw [hr] at h
    dsimp only at h
    split at h
    · obtain ⟨rfl, -⟩ := Prod.mk.inj h
      exact .inl (congrArg Account.domains (account_respond ..))
    · obtain ⟨rfl, -⟩ := Prod.mk.inj h
      exact .inl rfl
  | futurePort o =>
    rw [hr] at h
    obtain ⟨rfl, -⟩ := Prod.mk.inj h
    refine .inl ?_
    unfold futurePort
    dsimp only
    split
    · split_ifs <;> rfl
    · rfl
  | _ =>
    rw [hr] at h
    obtain ⟨rfl, -⟩ := Prod.mk.inj h
    exact .inl rfl

end Messages

/-! ### Runs -/

/-- An authorized request has asked for the domain, and the system manager finds it in order. -/
def AskedFor (parseDate : Text → Option ℤ) (p : State A) (domain : Text) : Prop :=
  (∃ k visit, p.visits k = some visit ∧ Authorized parseDate visit.http = true ∧
    visit.http.path = "/RegisterDomain".toList ∧ visit.http.param "RegisterDomain" = domain) ∧
  ∃ getByName, (validate getByName domain).1 = none

theorem AskedFor.mono {p p' : State A} {domain : Text} (hext : Extends p p')
    (h : AskedFor parseDate p domain) :
    AskedFor parseDate p' domain := by
  obtain ⟨⟨k, visit, hvisit, hauth, hpath, hparam⟩, hname⟩ := h
  obtain ⟨response, hnew⟩ := hext k visit hvisit
  exact ⟨⟨k, _, hnew, hauth, hpath, hparam⟩, hname⟩

/-- The request behind the question. -/
theorem question_registerDomain {uid : ℤ} {http : Http} {domain : Text}
    (h : intent parseDate format uid http = .ask (.registerDomain domain)) :
    Authorized parseDate http = true ∧ http.path = "/RegisterDomain".toList ∧
      http.param "RegisterDomain" = domain := by
  rcases intent_ask h with ⟨hm, -⟩ | ⟨route, hmem, hpath, hquestion, hneeds⟩
  · cases hm
  · obtain ⟨hauth, hsame, hparam⟩ := (sound_of_mem hmem).domain http domain hquestion
    exact ⟨hneeds hauth, hpath.symm.trans hsame, hparam⟩

section Kept

variable {old : List Text} {p p' : State A} {e : Mail} {out : List Mail}

/-- What the domains are between two messages. -/
structure Domains (c : Settings A) (parseDate : Text → Option ℤ) (format : ℤ → Text)
    (old : List Text) (p : State A) :
    Prop where
  fine : Fine c parseDate format p
  wf : WF p.account.domains
  nodup : (domainNames p.account.domains).Nodup
  asked : ∀ domain ∈ domainNames p.account.domains, domain ∈ old ∨ AskedFor parseDate p domain

/-- A message, and the domain in it. -/
def Carries (c : Settings A) (parseDate : Text → Option ℤ) (format : ℤ → Text) (p : State A)
    (e : Mail) : Prop :=
  Suits c parseDate format p e ∧ ∀ domain, e.message = .storeUserDomain domain →
    AskedFor parseDate p domain

theorem askedFor_of_question {k : ℕ} {domain : Text} {getByName : Text → Lookup}
    (hk : asked c parseDate format p k = some (.registerDomain domain))
    (hvalid : (validate getByName domain).1 = none) :
    AskedFor parseDate p domain := by
  obtain ⟨visit, hvisit, hintent⟩ := asked_eq_some.mp hk
  exact ⟨⟨k, visit, hvisit, question_registerDomain hintent⟩, getByName, hvalid⟩

theorem askedFor_of_suits (he : Suits c parseDate format p e) {domain : Text}
    {getByName : Text → Lookup} (hm : e.message = .registerDomain domain)
    (hvalid : (validate getByName domain).1 = none) :
    AskedFor parseDate p domain := by
  cases he with
  | question to' hhttp hport h =>
    subst hm
    exact askedFor_of_question h hvalid
  | answer sender h ha => cases hm
  | portQuestion h => cases hm
  | port h => cases hm
  | store to' hto => cases hm

theorem Domains.receive {m : Meets} (hp : Domains c parseDate format old p)
    (he : Carries c parseDate format p e) (hnew : p.account.domains.find m.new.uuid = none)
    (h : receive c m e p = (p', out)) :
    Keeps (Domains c parseDate format old) (Carries c parseDate format) p p' out := by
  obtain ⟨hfine, hout, hkeep⟩ := receive_keeps hp.fine he.1 h
  have hext := extends_receive h
  refine ⟨?_, fun x hx => ⟨hout x hx, fun domain hdomain => ?_⟩,
    fun x hx => ⟨hkeep x hx.1, fun domain hdomain => (hx.2 domain hdomain).mono hext⟩⟩
  · rcases domains_receive h with hsame | ⟨domain, hm, hdomains⟩
    · refine ⟨hfine, hsame ▸ hp.wf, hsame ▸ hp.nodup, fun d hd => ?_⟩
      rw [hsame] at hd
      exact (hp.asked d hd).imp_right (AskedFor.mono hext)
    · have hnames := domainNames_registerUserDomain hp.wf hnew domain
      rw [← hdomains] at hnames
      refine ⟨hfine, hdomains ▸ wf_registerUserDomain hp.wf m.new domain, ?_, fun d hd => ?_⟩
      · rw [hnames]
        split_ifs with hd
        · exact hp.nodup
        · exact List.nodup_append.mpr ⟨hp.nodup, List.nodup_singleton domain, by
            rintro a ha b hb rfl
            exact hd (List.mem_singleton.mp hb ▸ ha)⟩
      · have hcases : d ∈ domainNames p.account.domains ∨ d = domain := by
          rw [hnames] at hd
          split_ifs at hd
          · exact .inl hd
          · exact (List.mem_append.mp hd).imp_right List.mem_singleton.mp
        rcases hcases with hold | rfl
        · exact (hp.asked d hold).imp_right (AskedFor.mono hext)
        · exact .inr ((he.2 d hm).mono hext)
  · rcases message_of_receive h hx hdomain with hm | ⟨-, hm, hvalid⟩
    · exact (he.2 domain hm).mono hext
    · exact (askedFor_of_suits he.1 hm hvalid).mono hext

variable [DecidableEq A] [Neodatis SvdFileEventBinding]

theorem Domains.input (hp : Domains c parseDate format old p)
    (h : Input c parseDate format p p' out) :
    Keeps (Domains c parseDate format old) (Carries c parseDate format) p p' out := by
  obtain ⟨hfine, hout, hkeep⟩ := input_keeps hp.fine h
  have hext := extends_input h
  have hdomains : p'.account.domains = p.account.domains ∧
      ∀ x ∈ out, ∀ domain, x.message ≠ .storeUserDomain domain := by
    cases h with
    | respond hnew h => exact ⟨rfl, by simp⟩
    | ask hnew h =>
      refine ⟨rfl, fun x hx => ?_⟩
      obtain rfl := List.mem_singleton.mp hx
      exact (ask_ne h).2
    | timeout k => exact ⟨congrArg Account.domains (account_respond ..), by simp⟩
    | noPort h =>
      refine ⟨rfl, fun x hx => ?_⟩
      obtain rfl := List.mem_singleton.mp hx
      simp
    | watch e hcreate hdestroy => exact ⟨rfl, by simp⟩
  obtain ⟨hsame, hnone⟩ := hdomains
  refine ⟨⟨hfine, hsame ▸ hp.wf, hsame ▸ hp.nodup, fun d hd => ?_⟩,
    fun x hx => ⟨hout x hx, fun domain hdomain => absurd hdomain (hnone x hx domain)⟩,
    fun x hx => ⟨hkeep x hx.1, fun domain hdomain => (hx.2 domain hdomain).mono hext⟩⟩
  rw [hsame] at hd
  exact (hp.asked d hd).imp_right (AskedFor.mono hext)

/-- **The domains of the account have been asked for.** After every run, a domain is an old one, or
an authorized request has asked to register it and the system manager found it in order; and no
domain is there twice. -/
theorem domains_asked_for {a : Account A} {n : Net (State A) Actor Msg} (ha : a.futures = [])
    (hw : WF a.domains) (hnodup : (domainNames a.domains).Nodup)
    (h : Reaches (system c parseDate format) (start a) n) :
    (domainNames n.state.account.domains).Nodup ∧
      ∀ domain ∈ domainNames n.state.account.domains, domain ∈ domainNames a.domains ∨
        AskedFor parseDate n.state domain := by
  have hstart : Holds (Domains c parseDate format (domainNames a.domains))
    (Carries c parseDate format) (start a) := by
    refine ⟨⟨(holds_start ha).1, hw, hnodup, fun domain hd => .inl hd⟩, fun e he => ?_⟩
    cases he
  have hkept := h.invariant (Q := Carries c parseDate format) ?_ (fun s s' out hp hin =>
    hp.input hin) hstart
  · exact ⟨hkept.1.nodup, hkept.1.asked⟩
  · rintro e s s' out hp he ⟨m, hnew, hreceive⟩
    exact hp.receive he hnew hreceive

end Kept

/-! ### One domain -/

section Domain

def domain : Text := "verknowsys.com".toList

def owner : Http :=
  ⟨"/RegisterDomain".toList, fun key => if key = "RegisterDomain".toList then [domain] else [],
    ["svdauth=kluczo!".toList], 0⟩

/-- The answer is still on its way when the domain is stored. -/
def stored : Net (State Unit) Actor Msg :=
  ⟨⟨{ account with domains := registerUserDomain account.domains meets.new domain },
    Function.update (fun _ => none) 0 (some ⟨owner, none⟩)⟩,
    [⟨.http 0, .systemManager, .answer (registered none)⟩]⟩

theorem reaches_stored : Reaches panel (start account) stored := by
  let s : State Unit := ⟨account, Function.update (fun _ => none) 0 (some ⟨owner, none⟩)⟩
  let answer : Mail := ⟨.http 0, .systemManager, .answer (registered none)⟩
  have hask : Step panel (start account) ⟨s, [⟨.webManager, .http 0, .registerDomain domain⟩]⟩ :=
    .input (.ask rfl rfl)
  have hweb : Step panel ⟨s, [⟨.webManager, .http 0, .registerDomain domain⟩]⟩
      ⟨s, [⟨.accountManager, .http 0, .registerDomain domain⟩]⟩ := .between [] [] ⟨meets, rfl, rfl⟩
  have haccount : Step panel ⟨s, [⟨.accountManager, .http 0, .registerDomain domain⟩]⟩
      ⟨s, [⟨.systemManager, .http 0, .registerDomain domain⟩]⟩ := .between [] [] ⟨meets, rfl, rfl⟩
  have hsystem : Step panel ⟨s, [⟨.systemManager, .http 0, .registerDomain domain⟩]⟩
      ⟨s, [⟨.webManager, .systemManager, .storeUserDomain domain⟩, answer]⟩ :=
    .between [] [] ⟨meets, rfl, rfl⟩
  have hback : Step panel ⟨s, [⟨.webManager, .systemManager, .storeUserDomain domain⟩, answer]⟩
      ⟨s, [answer, ⟨.accountManager, .systemManager, .storeUserDomain domain⟩]⟩ :=
    .between [] [answer] ⟨meets, rfl, rfl⟩
  have hstore : Step panel ⟨s, [answer, ⟨.accountManager, .systemManager, .storeUserDomain domain⟩]⟩
    stored :=
    .between [answer] [] ⟨meets, rfl, rfl⟩
  exact (((((Relation.ReflTransGen.single hask).tail hweb).tail haccount).tail hsystem).tail
    hback).tail hstore

theorem domains_asked_for_stored :
    (domainNames stored.state.account.domains).Nodup ∧
      ∀ d ∈ domainNames stored.state.account.domains, d ∈ domainNames account.domains ∨
        AskedFor (fun _ => none) stored.state d :=
  domains_asked_for (a := account) rfl wf_init List.nodup_nil reaches_stored

example : domainNames stored.state.account.domains = [domain] := rfl

end Domain

end ServeD.Web.PanelDomains
