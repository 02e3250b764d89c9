import ServeD.Web.PanelRuns

/-! # Requests without authorization

The requests to the web panel that have no cookie for `checkAuth`, and what comes of them.

* `mem_unauthorizedResponses`: there are five responses to such a request, and none depends on the
  account;
* `unauthorized_without_influence`: without these requests and the messages about them, a run is a
  run of the panel with the same account and the same responses to the others. -/

namespace ServeD.Web.PanelInfluence

open ServeD.Lib ServeD.Lib.Texts ServeD.Lib.Actors
open ServeD.Api.Records ServeD.Db.Client ServeD.Managers ServeD.Managers.WebApi
open ServeD.Web.Panel ServeD.Web.PanelRuns

variable {A : Type} {c : Settings A} {parseDate : Text → Option ℤ} {format : ℤ → Text}

/-! ### Responses -/

section Responses

variable [DecidableEq A] [Neodatis SvdFileEventBinding] {n : Net (State A) Actor Msg}

/-- What a request without authorization can get: nothing of it depends on the account. -/
def unauthorizedResponses (format : ℤ → Text) (http : Http) : List Response :=
  [authorizedResponse format http, invalidRequest, .failed, .json (apiRespond .timeout) none,
    .json (apiRespond (.success (.apiError "Not yet implemented.".toList none))) none]

theorem mem_unauthorizedResponses {a : Account A} (ha : a.futures = [])
    (h : Reaches (system c parseDate format) (start a) n) {k : ℕ} {http : Http}
    {response : Response} (hk : n.state.visits k = some ⟨http, some response⟩)
    (hauth : Authorized parseDate http = false) :
    response ∈ unauthorizedResponses format http := by
  have hresponded := (holds_of_reaches ha h).1.responded k _ hk response rfl
  dsimp only at hresponded
  unfold unauthorizedResponses
  rcases hintent : intent parseDate format c.uid http with r | m
  · rw [hintent] at hresponded
    obtain rfl := hresponded
    rcases intent_respond hintent with rfl | rfl | rfl
    all_goals simp
  · rw [hintent] at hresponded
    rcases hresponded with rfl | ⟨b, hb, rfl⟩
    · simp
    · rcases question_of_unauthorized hintent hauth with rfl | ⟨userName, rfl⟩
      · exact hb.elim
      · have hb : b = .apiError "Not yet implemented.".toList none := hb
        subst hb
        simp

end Responses

/-! ### The view -/

section Unauthorized

variable {p p' : State A} {e : Mail} {out : List Mail}

/-- The visits that are authorized. -/
def authorizedOnly (parseDate : Text → Option ℤ) (p : State A) : State A :=
  { p with visits := fun k => (p.visits k).filter fun visit => Authorized parseDate visit.http }

/-- The request that waits behind an actor. -/
def client : Actor → Option ℕ
  | .http k => some k
  | .futurePort o => client o
  | _ => none

/-- The request that a message is about. -/
def about (e : Mail) : Option ℕ :=
  match client e.receiver with
  | some k => some k
  | none => client e.sender

/-- The message is not about a request without authorization. -/
def seen (parseDate : Text → Option ℤ) (p : State A) (e : Mail) : Bool :=
  match about e with
  | none => true
  | some k => (p.visits k).any fun visit => Authorized parseDate visit.http

theorem about_reply {a : Answer} {x : Mail} (he : client e.receiver = none) (hx : x ∈ reply e a) :
    about x = about e := by
  obtain rfl := List.mem_singleton.mp hx
  unfold about
  dsimp only
  rw [he]
  rcases client e.sender with _ | k <;> rfl

theorem about_forward {to' : Actor} {x : Mail} (he : client e.receiver = none)
    (hto : client to' = none) (hx : x ∈ forward to' e) : about x = about e := by
  obtain rfl := List.mem_singleton.mp hx
  unfold about
  dsimp only
  rw [he, hto]

theorem about_accountManager {m : Meets} {a a' : Account A} (he : client e.receiver = none)
    (h : accountManager c m e a = (a', out)) : ∀ x ∈ out, about x = about e := by
  have hsystem : ∀ x ∈ systemBase c e, about x = about e := by
    intro x hx
    unfold systemBase at hx
    split_ifs at hx
    · cases hx
    · exact about_forward he rfl hx
  have hwatch : ∀ (rs : List FileWatch.Reply), ∀ x ∈ rs.flatMap (fun r => reply e (ofFileWatch r)),
      about x = about e := by
    intro rs x hx
    obtain ⟨r, -, hx⟩ := List.mem_flatMap.mp hx
    exact about_reply he hx
  unfold accountManager at h
  cases hm : e.message with
  | registerUserPort =>
    rw [hm] at h
    dsimp only at h
    split_ifs at h
    · split at h
      · obtain ⟨-, rfl⟩ := Prod.mk.inj h
        simp
      · obtain ⟨-, rfl⟩ := Prod.mk.inj h
        exact fun x hx => about_reply he hx
    · obtain ⟨-, rfl⟩ := Prod.mk.inj h
      intro x hx
      obtain rfl := List.mem_singleton.mp hx
      unfold about
      dsimp only
      rw [he]
      rfl
  | _ =>
    rw [hm] at h
    obtain ⟨-, rfl⟩ := Prod.mk.inj h
    first
      | exact hsystem
      | exact hwatch _
      | exact fun x hx => about_reply he hx
      | exact fun x hx => about_forward he rfl hx
      | exact fun x hx => nomatch hx

/-- A net without the requests that are not authorized. -/
abbrev withoutUnauthorized (parseDate : Text → Option ℤ) (n : Net (State A) Actor Msg) :
    Net (State A) Actor Msg :=
  purge (authorizedOnly parseDate) (seen parseDate) n

theorem about_systemManager {m : Meets} (he : client e.receiver = none) :
    ∀ x ∈ systemManager m e, about x = about e ∨ about x = none := by
  intro x hx
  unfold systemManager at hx
  split at hx
  · split at hx
    · exact .inl (about_reply he hx)
    · exact .inl (about_reply he hx)
  · split at hx
    · rcases List.mem_cons.mp hx with rfl | hx
      · exact .inr rfl
      · exact .inl (about_reply he hx)
    · exact .inl (about_reply he hx)
  · exact .inl (about_reply he hx)
  · split at hx
    · cases hx
    · obtain rfl := List.mem_singleton.mp hx
      refine .inl ?_
      unfold about
      dsimp only
      rw [he]
      rcases client e.sender with _ | k <;> rfl
  · cases hx

/-- Messages bring about messages about the same request, or about none. -/
theorem about_receive {m : Meets} (h : receive c m e p = (p', out)) :
    ∀ x ∈ out, about x = about e ∨ about x = none := by
  unfold receive at h
  rcases hr : e.receiver with _ | _ | _ | _ | _ | _ | k | o
  · rw [hr] at h
    obtain ⟨-, rfl⟩ := Prod.mk.inj h
    intro x hx
    unfold webManager at hx
    split at hx
    · cases hx
    · exact .inl (about_forward (by rw [hr]; rfl) rfl hx)
  · rw [hr] at h
    obtain ⟨-, rfl⟩ := Prod.mk.inj h
    exact fun x hx => .inl (about_accountManager (by rw [hr]; rfl) rfl x hx)
  · rw [hr] at h
    obtain ⟨-, rfl⟩ := Prod.mk.inj h
    exact about_systemManager (by rw [hr]; rfl)
  · rw [hr] at h
    obtain ⟨-, rfl⟩ := Prod.mk.inj h
    intro x hx
    unfold userBoot at hx
    split at hx
    · exact .inl (about_reply (by rw [hr]; rfl) hx)
    · cases hx
  · rw [hr] at h
    obtain ⟨-, rfl⟩ := Prod.mk.inj h
    simp
  · rw [hr] at h
    obtain ⟨-, rfl⟩ := Prod.mk.inj h
    simp
  · rw [hr] at h
    dsimp only at h
    split at h
    all_goals
      obtain ⟨-, rfl⟩ := Prod.mk.inj h
      simp
  · rw [hr] at h
    obtain ⟨-, rfl⟩ := Prod.mk.inj h
    intro x hx
    unfold futurePort at hx
    split at hx
    · split_ifs at hx
      · obtain rfl := List.mem_singleton.mp hx
        have hout : ∀ b, about ⟨o, .accountManager, b⟩ = client o := by
          intro b
          unfold about
          dsimp only
          rcases client o with _ | k <;> rfl
        rcases ho : client o with _ | k
        · exact .inr ((hout _).trans ho)
        · have he : about e = some k := by
            unfold about
            rw [hr]
            show (match client o with | some k => some k | none => client e.sender) = some k
            rw [ho]
          exact .inl ((hout _).trans (ho.trans he.symm))
      · cases hx
    · cases hx

theorem asked_of_suits (he : Suits c parseDate format p e) {k : ℕ} (hk : about e = some k) :
    ∃ m, asked c parseDate format p k = some m := by
  have hstore : ∀ {to' : Actor} {domain : Text}, to' = .webManager ∨ to' = .accountManager →
      about ⟨to', .systemManager, .storeUserDomain domain⟩ = none := by
    intro to' domain hto
    rcases hto with rfl | rfl <;> rfl
  have hquestion : ∀ {to' : Actor} {j : ℕ} {m : Msg}, (∀ i, to' ≠ .http i) →
    (∀ o, to' ≠ .futurePort o) →
      about ⟨to', .http j, m⟩ = some j := by
    intro to' j m hhttp hport
    cases to' with
    | http i => exact absurd rfl (hhttp i)
    | futurePort o => exact absurd rfl (hport o)
    | _ => rfl
  cases he with
  | question to' hhttp hport h =>
    rw [hquestion hhttp hport] at hk
    obtain rfl := Option.some.inj hk
    exact ⟨_, h⟩
  | answer sender h ha =>
    obtain rfl := Option.some.inj hk
    exact ⟨_, h⟩
  | portQuestion h =>
    obtain rfl := Option.some.inj hk
    exact ⟨_, h⟩
  | port h =>
    obtain rfl := Option.some.inj hk
    exact ⟨_, h⟩
  | store to' hto =>
    rw [hstore hto] at hk
    cases hk

/-- Whether a message is seen does not change. -/
theorem seen_of_extends (hext : Extends p p') (he : Suits c parseDate format p e) :
    seen parseDate p' e = seen parseDate p e := by
  unfold seen
  rcases hk : about e with _ | k
  · rfl
  · obtain ⟨m, hm⟩ := asked_of_suits he hk
    obtain ⟨visit, hvisit, -⟩ := asked_eq_some.mp hm
    obtain ⟨response, hnew⟩ := hext k visit hvisit
    dsimp only
    rw [hvisit, hnew]
    rfl

/-- What is seen brings about what is seen. -/
theorem seen_receive {m : Meets} (hext : Extends p p') (he : Suits c parseDate format p e)
    (hseen : seen parseDate p e = true) (h : receive c m e p = (p', out)) :
    out.filter (seen parseDate p') = out := by
  refine List.filter_eq_self.mpr fun x hx => ?_
  rcases about_receive h x hx with hsame | hnone
  · have heq : seen parseDate p' x = seen parseDate p' e := by
      unfold seen
      rw [hsame]
    rw [heq, seen_of_extends hext he, hseen]
  · unfold seen
    rw [hnone]

theorem filter_update {visits : ℕ → Option Visit} {k : ℕ} {visit : Visit}
    {auth : Visit → Bool} (j : ℕ) :
    (Function.update visits k (some visit) j).filter auth =
      if j = k then (some visit).filter auth else (visits j).filter auth := by
  by_cases hj : j = k
  · subst hj
    rw [Function.update_self, if_pos rfl]
  · rw [Function.update_of_ne hj, if_neg hj]

/-- A response to a request with authorization is one also in the view. -/
theorem respond_authorized {k : ℕ} {response : Response}
    (hk : (p.visits k).any (fun visit => Authorized parseDate visit.http) = true) :
    (authorizedOnly parseDate p).respond k response =
      authorizedOnly parseDate (p.respond k response) := by
  rcases hvisit : p.visits k with _ | ⟨http, old⟩
  · rw [hvisit] at hk
    cases hk
  · rw [hvisit] at hk
    have hauth : Authorized parseDate http = true := hk
    have hview : (authorizedOnly parseDate p).visits k = some ⟨http, old⟩ := by
      show (p.visits k).filter _ = _
      rw [hvisit, Option.filter_some, if_pos hauth]
    cases old with
    | none =>
      unfold State.respond
      rw [hview, hvisit]
      dsimp only [authorizedOnly]
      congr 1
      funext j
      rw [filter_update, Option.filter_some, if_pos hauth, Function.update_apply]
    | some old =>
      unfold State.respond
      rw [hview, hvisit]

/-- A response to another request is not in it. -/
theorem respond_unauthorized {k : ℕ} {response : Response}
    (hk : (p.visits k).any (fun visit => Authorized parseDate visit.http) = false) :
    authorizedOnly parseDate (p.respond k response) = authorizedOnly parseDate p := by
  rcases hvisit : p.visits k with _ | ⟨http, _ | old⟩
  · unfold State.respond
    rw [hvisit]
  · rw [hvisit] at hk
    have hauth : Authorized parseDate http = false := hk
    unfold State.respond
    rw [hvisit]
    dsimp only [authorizedOnly]
    congr 1
    funext j
    rw [filter_update, Option.filter_some]
    dsimp only
    rw [hauth, if_neg Bool.false_ne_true]
    split_ifs with hj
    · subst hj
      rw [hvisit, Option.filter_some]
      dsimp only
      rw [hauth, if_neg Bool.false_ne_true]
    · rfl
  · unfold State.respond
    rw [hvisit]

theorem receive_authorizedOnly {m : Meets} (hseen : seen parseDate p e = true)
    (h : receive c m e p = (p', out)) :
    receive c m e (authorizedOnly parseDate p) = (authorizedOnly parseDate p', out) := by
  unfold receive at h ⊢
  rcases hr : e.receiver with _ | _ | _ | _ | _ | _ | k | o
  case http =>
    rw [hr] at h
    have hk : (p.visits k).any (fun visit => Authorized parseDate visit.http) = true := by
      unfold seen about at hseen
      rw [hr] at hseen
      exact hseen
    dsimp only at h ⊢
    split at h
    · obtain ⟨rfl, rfl⟩ := Prod.mk.inj h
      rw [respond_authorized hk]
    · obtain ⟨rfl, rfl⟩ := Prod.mk.inj h
      rfl
  all_goals
    rw [hr] at h
    obtain ⟨rfl, rfl⟩ := Prod.mk.inj h
    rfl

theorem question_of_unseen {k : ℕ} {m : Msg} (hk : asked c parseDate format p k = some m)
    (hauth : (p.visits k).any (fun visit => Authorized parseDate visit.http) = false) :
    m = .answer unauthorized ∨ ∃ userName, m = .registerAccount userName := by
  obtain ⟨visit, hvisit, hintent⟩ := asked_eq_some.mp hk
  rw [hvisit] at hauth
  exact question_of_unauthorized hintent hauth

/-- What the two questions without authorization bring about: nothing,
or a message about the same request. -/
theorem receive_unauthorized {m : Meets} {q : Msg} (hq : q = .answer unauthorized ∨ ∃ userName,
      q = .registerAccount userName)
    (he : client e.receiver = none) (hm : e.message = q) (h : receive c m e p = (p', out)) :
    p' = p ∧ ∀ x ∈ out, about x = about e := by
  have hempty : ∀ x ∈ ([] : List Mail), about x = about e := by simp
  unfold receive at h
  rcases hr : e.receiver with _ | _ | _ | _ | _ | _ | k | o
  · rw [hr] at h
    obtain ⟨rfl, rfl⟩ := Prod.mk.inj h
    unfold webManager
    rw [hm]
    rcases hq with rfl | ⟨userName, rfl⟩
    · exact ⟨rfl, hempty⟩
    · exact ⟨rfl, fun x hx => about_forward he rfl hx⟩
  · rw [hr] at h
    obtain ⟨rfl, rfl⟩ := Prod.mk.inj h
    unfold accountManager
    rw [hm]
    rcases hq with rfl | ⟨userName, rfl⟩
    · exact ⟨rfl, hempty⟩
    · exact ⟨rfl, fun x hx => about_reply he hx⟩
  · rw [hr] at h
    obtain ⟨rfl, rfl⟩ := Prod.mk.inj h
    unfold systemManager
    rw [hm]
    rcases hq with rfl | ⟨userName, rfl⟩
    · exact ⟨rfl, hempty⟩
    · exact ⟨rfl, hempty⟩
  · rw [hr] at h
    obtain ⟨rfl, rfl⟩ := Prod.mk.inj h
    unfold userBoot
    rw [hm]
    rcases hq with rfl | ⟨userName, rfl⟩
    · exact ⟨rfl, hempty⟩
    · exact ⟨rfl, hempty⟩
  · rw [hr] at h
    obtain ⟨rfl, rfl⟩ := Prod.mk.inj h
    exact ⟨rfl, hempty⟩
  · rw [hr] at h
    obtain ⟨rfl, rfl⟩ := Prod.mk.inj h
    exact ⟨rfl, hempty⟩
  · rw [hr] at he
    cases he
  · rw [hr] at h
    obtain ⟨rfl, rfl⟩ := Prod.mk.inj h
    unfold futurePort
    rw [hm]
    rcases hq with rfl | ⟨userName, rfl⟩
    · exact ⟨rfl, hempty⟩
    · exact ⟨rfl, hempty⟩

/-- A request without authorization leaves the account as it is, and its messages are not seen. -/
theorem unseen_receive {m : Meets} (he : Suits c parseDate format p e)
    (hunseen : seen parseDate p e = false) (h : receive c m e p = (p', out)) :
    authorizedOnly parseDate p' = authorizedOnly parseDate p ∧
      out.filter (seen parseDate p') = [] := by
  have hauth : ∀ {k}, about e = some k → (p.visits k).any (fun visit =>
    Authorized parseDate visit.http) = false := by
    intro k hk
    unfold seen at hunseen
    rw [hk] at hunseen
    exact hunseen
  have hfree : ∀ {k}, about e = some k → asked c parseDate format p k ≠ some .registerUserPort := by
    intro k hk hasked
    rcases question_of_unseen hasked (hauth hk) with hm | ⟨userName, hm⟩
    all_goals cases hm
  have hquiet : p' = p → (∀ x ∈ out, about x = about e) →
      authorizedOnly parseDate p' = authorizedOnly parseDate p ∧
      out.filter (seen parseDate p') = [] := by
    rintro rfl hout
    refine ⟨rfl, List.filter_eq_nil_iff.mpr fun x hx => ?_⟩
    have heq : seen parseDate p' x = seen parseDate p' e := by
      unfold seen
      rw [hout x hx]
    rw [heq, hunseen]
    exact Bool.false_ne_true
  cases he with
  | @question k q to' hhttp hport hk =>
    have hto : client to' = none := by
      cases to' with
      | http j => exact absurd rfl (hhttp j)
      | futurePort o => exact absurd rfl (hport o)
      | _ => rfl
    have habout : about ⟨to', .http k, q⟩ = some k := by
      unfold about
      rw [hto]
      rfl
    obtain ⟨hp, hout⟩ := receive_unauthorized (question_of_unseen hk (hauth habout)) hto rfl h
    exact hquiet hp hout
  | @answer k q a sender hk ha =>
    obtain ⟨rfl, rfl⟩ := Prod.mk.inj h
    exact ⟨respond_unauthorized (hauth rfl), rfl⟩
  | portQuestion hk => exact absurd hk (hfree rfl)
  | port hk => exact absurd hk (hfree rfl)
  | store to' hto =>
    unfold seen at hunseen
    rcases hto with rfl | rfl
    all_goals cases hunseen

/-- A new visit in the view. -/
theorem authorizedOnly_visit {k : ℕ} {visit : Visit} (hnew : p.visits k = none) :
    authorizedOnly parseDate { p with visits := Function.update p.visits k (some visit) } =
      if Authorized parseDate visit.http then
        { authorizedOnly parseDate p with
          visits := Function.update (authorizedOnly parseDate p).visits k (some visit) }
      else authorizedOnly parseDate p := by
  split_ifs with hauth
  · dsimp only [authorizedOnly]
    congr 1
    funext j
    rw [filter_update, Option.filter_some, if_pos hauth, Function.update_apply]
  · dsimp only [authorizedOnly]
    congr 1
    funext j
    rw [filter_update, Option.filter_some, if_neg hauth]
    split_ifs with hj
    · subst hj
      rw [hnew]
      rfl
    · rfl

section Influence

variable [DecidableEq A] [Neodatis SvdFileEventBinding] {n : Net (State A) Actor Msg}

/-- What comes from outside comes also to the view, or changes nothing of it. -/
theorem input_authorizedOnly (hp : Fine c parseDate format p)
    (h : Input c parseDate format p p' out) :
    Input c parseDate format (authorizedOnly parseDate p) (authorizedOnly parseDate p')
      (out.filter (seen parseDate p')) ∨
      authorizedOnly parseDate p' = authorizedOnly parseDate p ∧
      out.filter (seen parseDate p') = [] := by
  have hnone : ∀ {k}, p.visits k = none → (authorizedOnly parseDate p).visits k = none := by
    intro k hk
    show (p.visits k).filter _ = none
    rw [hk]
    rfl
  cases h with
  | @respond k http response hnew h =>
    rw [authorizedOnly_visit hnew]
    split_ifs with hauth
    · exact .inl (.respond (hnone hnew) h)
    · exact .inr ⟨rfl, rfl⟩
  | @ask k http m hnew h =>
    have hseen : seen parseDate { p with visits := Function.update p.visits k (some ⟨http, none⟩) }
        ⟨.webManager, .http k, m⟩ = Authorized parseDate http := by
      show (Function.update p.visits k (some ⟨http, none⟩) k).any _ = _
      rw [Function.update_self]
      rfl
    rw [authorizedOnly_visit hnew]
    split_ifs with hauth
    · rw [List.filter_cons_of_pos (hseen.trans hauth)]
      exact .inl (.ask (hnone hnew) h)
    · rw [List.filter_cons_of_neg (by rw [hseen]; exact hauth)]
      exact .inr ⟨rfl, rfl⟩
  | timeout k =>
    by_cases hk : (p.visits k).any (fun visit => Authorized parseDate visit.http) = true
    · rw [← respond_authorized hk]
      exact .inl (.timeout k)
    · exact .inr ⟨respond_unauthorized (Bool.not_eq_true _ ▸ hk), rfl⟩
  | @noPort originSender h =>
    obtain ⟨k, rfl, hk⟩ := hp.futures _ h
    have hseen : seen parseDate
        { p with account := { p.account with futures := p.account.futures.erase (.http k) } }
        ⟨.http k, .accountManager, .answer (Request.registerUserPort .failed).answer⟩ = true := by
      show (p.visits k).any _ = true
      rw [← Bool.not_eq_false]
      intro hauth
      rcases question_of_unseen hk hauth with hm | ⟨userName, hm⟩
      all_goals cases hm
    rw [List.filter_cons_of_pos hseen]
    exact .inl (.noPort h)
  | watch e hcreate hdestroy => exact .inl (.watch e hcreate hdestroy)

/-- **Requests without authorization have no influence and learn nothing.** Without them and all
messages about them, a run of the panel is one of its runs, to the same account and the same
responses to the other requests; and what they get is one of five responses, whatever the account
is. -/
theorem unauthorized_without_influence {a : Account A} (ha : a.futures = [])
    (h : Reaches (system c parseDate format) (start a) n) :
    Reaches (system c parseDate format) (start a) (withoutUnauthorized parseDate n) ∧
      ∀ k http response, n.state.visits k = some ⟨http, some response⟩ →
      Authorized parseDate http = false →
        response ∈ unauthorizedResponses format http := by
  have hstart : withoutUnauthorized parseDate (start a) = start a := rfl
  refine ⟨?_, fun k http response hk => mem_unauthorizedResponses ha h hk⟩
  rw [← hstart]
  refine h.purge handle_keeps (fun _ _ _ => input_keeps) ?_ ?_ ?_ ?_ (holds_start ha)
  · rintro s s' out - (hin | ⟨e', he', m, -, hreceive⟩) e he
    · exact seen_of_extends (extends_input hin) he
    · exact seen_of_extends (extends_receive hreceive) he
  · rintro e s s' out hp he hseen ⟨m, hfresh, hreceive⟩
    refine ⟨m, hfresh, ?_⟩
    rw [seen_receive (extends_receive hreceive) he hseen hreceive]
    exact receive_authorizedOnly hseen hreceive
  · rintro e s s' out hp he hunseen ⟨m, -, hreceive⟩
    exact unseen_receive he hunseen hreceive
  · exact fun s s' out hp hin => input_authorizedOnly hp hin

end Influence

end Unauthorized

/-! ### Two visits -/

def stranger : Http := ⟨"/RegisterAccount".toList, fun _ => [], [], 0⟩

/-- A stranger has come after the answer, and its time is over. -/
def afterStranger : Net (State Unit) Actor Msg :=
  ⟨({ visited (some domainsResponse) with
      visits := Function.update (visited (some domainsResponse)).visits 1 (some ⟨stranger, none⟩)
        } : State Unit).respond 1
        (.json (apiRespond .timeout) none),
    [⟨.webManager, .http 1, .registerAccount []⟩]⟩

theorem reaches_afterStranger : Reaches panel (start account) afterStranger := by
  have hask : Step panel ⟨visited (some domainsResponse), []⟩
      ⟨{ visited (some domainsResponse) with
        visits := Function.update (visited (some domainsResponse)).visits 1
          (some ⟨stranger, none⟩) },
        [⟨.webManager, .http 1, .registerAccount []⟩]⟩ := .input (.ask rfl rfl)
  exact (reaches_domainsResponse.tail hask).tail (.input (.timeout 1))

theorem unauthorized_without_influence_afterStranger :
    Reaches panel (start account) (withoutUnauthorized (fun _ => none) afterStranger) ∧
      ∀ k http response, afterStranger.state.visits k = some ⟨http, some response⟩ →
        Authorized (fun _ => none) http = false →
          response ∈ unauthorizedResponses (fun _ => []) http :=
  unauthorized_without_influence rfl reaches_afterStranger

end ServeD.Web.PanelInfluence
