import ServeD.Lib.Integers
import ServeD.Lib.JsonText
import ServeD.Managers.FileWatch

/-! # The answers of the web API

`SvdWebAPI.scala` (`apiRespond`), with the answers of `SvdAccountManager.scala` and
`SvdSystemManager.scala` that it sends and `validateDomain` of `SvdUtils.scala`. The managers put
names, paths, answers of services and texts of exceptions into the message or the content as they
are, and `apiRespond` puts both between quotes and brackets.

* `proper_iff`: a body is the JSON object of its message, content and status exactly when the
  message needs no escapes and the content is a list of JSON values.
* `responds_iff`: so it is with the answers of the managers, in terms of the names, paths and texts
  they meet. -/

namespace ServeD.Managers.WebApi

open ServeD.Lib ServeD.Lib.Texts ServeD.Lib.JsonText ServeD.Utils.Path

/-! ### The answers -/

/-- What a manager can answer. -/
inductive Answer where
  /-- the object `ApiSuccess` itself -/
  | done
  | apiSuccess (message : Text) (content : Option Text)
  | apiError (message : Text) (content : Option Text)
  | jsonContent (s : Text)
  deriving DecidableEq, Repr

/-- What comes of waiting for the answer, with the text of an exception other than a
`TimeoutException`. -/
inductive Result where
  | success (answer : Answer)
  | timeout
  | failure (x : Text)
  deriving DecidableEq, Repr

/-- The interpolated string of all answers. -/
def body (message : Text) (content : Option Text) (status : ℕ) : Text :=
  match content with
  | some cont => "\x7b\"message\": \"".toList ++ message ++ "\", \"content\":[".toList ++ cont ++
      "], \"status\":".toList ++ status.repr.toList ++ "\x7d".toList
  | none => "\x7b\"message\": \"".toList ++ message ++ "\", \"status\":".toList ++
    status.repr.toList ++
      "\x7d".toList

def successful : Text := "API call successful".toList

def timedOut : Text := "API request timed out.".toList

def crashed (x : Text) : Text := "API request crashed: ".toList ++ x ++ ".".toList

/-- `SvdWebAPI.apiRespond`: the text of the response. -/
def apiRespond : Result → Text
  | .success .done => body successful none 0
  | .success (.apiSuccess message content) => body message content 0
  | .success (.jsonContent s) => s
  | .success (.apiError message content) => body message content 2
  | .timeout => body timedOut none 3
  | .failure x => body (crashed x) none 4

/-- What the checks of `validateDomain` meet. -/
inductive Lookup where
  /-- the domain does not match `matcherFQDN` -/
  | notQualified
  | bound
  | notBound
  | unknownHost
  /-- an `AbstractMethodError` -/
  | wrongServer
  | exception (e : Text)
  deriving DecidableEq, Repr

/-- `SvdUtils.validateDomain`. -/
def validateDomain (domain : Text) (found : Lookup) : Option Text :=
  if domain = [] then some "Domain cannot be empty!".toList
  else
    match found with
    | .notQualified => some "Domain must be fully qualified, registered domain name.".toList
    | .bound => none
    | .notBound => some "Domain is incorrectly bound or DNS not yet propagated.".toList
    | .unknownHost => some ("Unknown host: ".toList ++ domain ++ "!".toList)
    | .wrongServer => some "Domain is bound to unknown or wrong server.".toList
    | .exception e => some ("Exception ".toList ++ e ++ " for: ".toList ++ domain ++ "!".toList)

/-- What a service answers to the account manager. -/
inductive ServiceAnswer where
  | content (text : Text)
  | askTimeout
  | exception (x : Text)
  deriving DecidableEq, Repr

/-- Where a port comes from. -/
inductive PortSource where
  | headless (port : ℤ)
  | systemManager (port : ℤ)
  | failed
  deriving DecidableEq, Repr

/-- The answer to `System.RegisterDomain` after the validation. -/
def registered : Option Text → Answer
  | none => .done
  | some x => .apiError ("Domain registration failures: ".toList ++ x) none

/-- The requests, with what the manager meets when it answers them. -/
inductive Request where
  | getRegisteredDomains (domains : List Text)
  | getServicePort (service : ServiceAnswer)
  | getServiceStatus (service : ServiceAnswer)
  | createFileWatch (userHomeDir fileName : Text) (registered : Bool)
  | destroyFileWatch (userHomeDir fileName : Text)
  | getUserPorts (numbers : List ℤ)
  | registerUserPort (source : PortSource)
  /-- with the exception of the copy, if there is one -/
  | cloneIgniterForUser (exception : Option Text)
  | registerDomain (domain : Text) (found : Lookup)
  deriving DecidableEq, Repr

def quoted (name : Text) : Text := '"' :: (name ++ ['"'])

def decimal (i : ℤ) : Text := (toString i).toList

/-- The answer of the manager. -/
def Request.answer : Request → Answer
  | .getRegisteredDomains domains =>
    .apiSuccess "Domain list".toList (some (mkString ", ".toList (domains.map quoted)))
  | .getServicePort (.content port) => .apiSuccess "Port gathered successfully.".toList (some port)
  | .getServicePort _ => .apiError "Service port unavailable!".toList none
  -- the message is not interpolated
  | .getServiceStatus (.content text) =>
    .apiSuccess "Status of service: $\x7bserviceName\x7d".toList (some text)
  | .getServiceStatus .askTimeout => .apiError
      "Service refused to answer. Installation is in progress or service's not started.".toList none
  | .getServiceStatus (.exception x) => .apiError ("Critical error: ".toList ++ x) none
  | .createFileWatch userHomeDir fileName true =>
    .apiError ("File Event already registerd for ".toList ++ joinChars userHomeDir fileName) none
  | .createFileWatch userHomeDir fileName false =>
    .apiSuccess ("File Event watch registered successfully for ".toList ++
      joinChars userHomeDir fileName) none
  | .destroyFileWatch userHomeDir fileName =>
    .apiSuccess ("File Event destroyed successfully for ".toList ++ joinChars userHomeDir fileName)
      none
  | .getUserPorts numbers => .apiSuccess "Stored services".toList
    (some (mkString ",".toList (numbers.map decimal)))
  | .registerUserPort (.headless port) =>
    .apiSuccess "Registered port for headless account".toList (some (decimal port))
  | .registerUserPort (.systemManager port) =>
    .apiSuccess ("Port registered: ".toList ++ decimal port) (some (decimal port))
  | .registerUserPort .failed => .apiError "Port gathering failed".toList none
  | .cloneIgniterForUser none => .done
  | .cloneIgniterForUser (some e) => .apiError ("Exception occured: ".toList ++ e) none
  | .registerDomain domain found => registered (validateDomain domain found)

/-! ### Where the requests come from

The model of the file watches gives these answers. -/

def ofFileWatch : FileWatch.Reply → Answer
  | .apiSuccess message => .apiSuccess message.toList none
  | .apiError message => .apiError message.toList none

section Managers

variable {A : Type} (w : FileWatch.World A) (self : A) (userHomeDir fileName : String)

theorem createFileWatch_answer (new : Api.Records.Fresh) (flags : Utils.FileEvents.Flags)
    (serviceName : String) :
    (w.createFileWatch userHomeDir self new fileName flags serviceName).2.map ofFileWatch =
      [(Request.createFileWatch userHomeDir.toList fileName.toList
        (w.bindingOn (join userHomeDir fileName)).isSome).answer] := by
  have hpath : (join userHomeDir fileName).toList = joinChars userHomeDir.toList fileName.toList :=
    String.toList_ofList
  rcases hb : w.bindingOn (join userHomeDir fileName) with _ | b
  · have hreply : (w.createFileWatch userHomeDir self new fileName flags serviceName).2 =
        [.apiSuccess ("File Event watch registered successfully for " ++
          join userHomeDir fileName)] := by
      simp only [FileWatch.World.createFileWatch, hb]
    rw [hreply, List.map_singleton, ofFileWatch, String.toList_append, hpath]
    rfl
  · have hreply : (w.createFileWatch userHomeDir self new fileName flags serviceName).2 =
        [.apiError ("File Event already registerd for " ++ join userHomeDir fileName)] := by
      simp only [FileWatch.World.createFileWatch, hb]
    rw [hreply, List.map_singleton, ofFileWatch, String.toList_append, hpath]
    rfl

theorem destroyFileWatch_answer : (w.destroyFileWatch userHomeDir self fileName).2.map ofFileWatch =
    [(Request.destroyFileWatch userHomeDir.toList fileName.toList).answer] := by
  have hpath : (join userHomeDir fileName).toList = joinChars userHomeDir.toList fileName.toList :=
    String.toList_ofList
  have hreply : (w.destroyFileWatch userHomeDir self fileName).2 =
      [.apiSuccess ("File Event destroyed successfully for " ++ join userHomeDir fileName)] := rfl
  rw [hreply, List.map_singleton, ofFileWatch, String.toList_append, hpath]
  rfl

end Managers

/-! ### JSON objects of answers -/

/-- The members of an answer. -/
def members (message : Text) (content : Option (List Json)) (status : ℕ) : List (List ℕ × Json) :=
  (utf16 "message".toList, .string (utf16 message)) ::
    ((content.map fun vs => (utf16 "content".toList, .array vs)).toList ++
      [(utf16 "status".toList, .number status.repr.toList)])

/-- The text is a JSON object with the message, an array if there is content, and the status. -/
def Proper (message : Text) (content : Option Text) (status : ℕ) (text : Text) : Prop :=
  ∃ vs : Option (List Json), vs.isSome = content.isSome ∧
    Denotes text (.object (members message vs status))

/-- **The response is the JSON object of the answer**: with status 0 for a success and 2 for an
error, with 3 if there is none in time and with 4 and the text of the exception if the request has
failed. -/
def Responds (result : Result) : Prop :=
  match result with
  | .success .done => Proper successful none 0 (apiRespond result)
  | .success (.apiSuccess message content) => Proper message content 0 (apiRespond result)
  | .success (.apiError message content) => Proper message content 2 (apiRespond result)
  | .success (.jsonContent _) => ∃ v, Denotes (apiRespond result) v
  | .timeout => Proper timedOut none 3 (apiRespond result)
  | .failure x => Proper (crashed x) none 4 (apiRespond result)

/-- The last member and the closing bracket. -/
def ending (status : ℕ) : Text :=
  ',' :: ' ' :: '"' :: ("status".toList ++ '"' :: ':' :: (status.repr.toList ++ ['\x7d']))

theorem body_none (message : Text) (status : ℕ) : body message none status =
    '\x7b' :: '"' :: ("message".toList ++ '"' :: ':' :: ' ' :: '"' ::
        (message ++ '"' :: ending status)) := by
  unfold body
  simp [ending]

theorem body_some (message cont : Text) (status : ℕ) : body message (some cont) status =
    '\x7b' :: '"' :: ("message".toList ++ '"' :: ':' :: ' ' :: '"' ::
        (message ++ '"' :: ',' :: ' ' :: '"' ::
      ("content".toList ++ '"' :: ':' :: '[' :: (cont ++ ']' :: ending status)))) := by
  unfold body
  simp [ending]

theorem isNumber_repr (n : ℕ) : IsNumber n.repr.toList := isNumber_toString n

theorem not_mem_repr {c : Char} (n : ℕ) (hc : c.isDigit = false) : c ∉ n.repr.toList := by
  intro hmem
  rw [Nat.toList_repr] at hmem
  have hdigit := Integers.isDigit_of_mem_toDigits hmem
  rw [hc] at hdigit
  cases hdigit

section Proper

variable {message cont : Text} {status : ℕ}

/-- What follows the message, and the bracket. -/
theorem reads_ending (status : ℕ) : ∃ q, skipWs (ending status) = ',' :: q ∧
    Reads (.members [(utf16 "status".toList, .number status.repr.toList)]) q [] := by
  have hplain : Plain "status".toList := by decide
  have hv := Reads.number (r := ['\x7d']) (isNumber_repr status)
  rw [← hv.skipWs_eq] at hv
  exact ⟨_, rfl, .lastMember rfl (hplain.chars _) rfl hv rfl⟩

/-- What is read as the last member after the content is the end of the body. -/
theorem eq_ending {q q' r : Text} {name : List ℕ} {n : ℕ}
    (hsuf : q <:+ '[' :: (cont ++ ']' :: ending status)) (hq : skipWs q = ',' :: q')
    (hmem : Reads (.members [(name, .number n.repr.toList)]) q' r) (hr : skipWs r = []) :
    q = ending status := by
  have hend : ending status = ',' :: ' ' :: '"' :: 's' ::
      ("tatus".toList ++ '"' :: ':' :: (status.repr.toList ++ ['\x7d'])) := by
    simp [ending]
  have hcomma :
      ',' ∉ 's' :: ("tatus".toList ++ '"' :: ':' :: (status.repr.toList ++ ['\x7d'])) := by
    have hdigit := not_mem_repr (c := ',') status rfl
    simp [-Nat.toList_repr, hdigit]
  rw [hend, ← List.cons_append] at hsuf
  rw [hend]
  exact Reads.eq_tail hsuf hq hmem hr hcomma (by decide) (by decide) (by decide)
    (not_mem_repr n rfl)

/-- The message is read, with what follows it. -/
theorem reads_message (h : Plain message) {z q : Text} {ms : List (List ℕ × Json)}
    (hz : skipWs z = ',' :: q) (hms : Reads (.members ms) q []) : Denotes
      ('\x7b' :: '"' :: ("message".toList ++ '"' :: ':' :: ' ' :: '"' :: (message ++ '"' :: z)))
      (.object ((utf16 "message".toList, .string (utf16 message)) :: ms)) := by
  have hplain : Plain "message".toList := by decide
  exact ⟨[], .object (.member rfl (hplain.chars _) rfl (.string (h.chars z)) hz hms), rfl⟩

/-- The message of an object is plain, and the other members stand behind it. -/
theorem plain_of_reads {z : Text} {ms : List (List ℕ × Json)} (hz : ∀ q, skipWs z ≠ ',' :: q)
    (hms : ms ≠ []) (h : Denotes
      ('\x7b' :: '"' :: ("message".toList ++ '"' :: ':' :: ' ' :: '"' ::
        (message ++ '"' :: ',' :: ' ' :: '"' :: z)))
      (.object ((utf16 "message".toList, .string (utf16 message)) :: ms))) :
    Plain message ∧ ∃ r, Reads (.members ms) (' ' :: '"' :: z) r ∧ skipWs r = [] := by
  have hplain : Plain "message".toList := by decide
  obtain ⟨r, hread, hr⟩ := h
  change Reads _ ('\x7b' :: _) r at hread
  cases hread with
  | object hmem =>
    obtain ⟨v, ms', heq, q, hv, hnext⟩ := hmem.member_inv hplain rfl
    obtain ⟨hfirst, rfl⟩ := List.cons.inj heq
    obtain rfl : _ = v := (Prod.mk.inj hfirst).2
    obtain ⟨q', hq, hmem'⟩ := hnext.resolve_left fun hnil => hms hnil.1
    change Reads _ ('"' :: _) q at hv
    cases hv with
    | string hchars =>
      rcases hchars.plain_or with ⟨hmessage, rfl⟩ | rfl
      · obtain ⟨-, rfl⟩ := List.cons.inj hq
        exact ⟨hmessage, r, hmem', hr⟩
      · exact absurd hq (hz q')

theorem proper_none_iff : Proper message none status (body message none status) ↔
    Plain message := by
  have hletter : ∀ q, skipWs ("status".toList ++ '"' :: ':' :: (status.repr.toList ++ ['\x7d'])) ≠
    ',' :: q := by
    simp [skipWs, isWs]
  rw [body_none]
  constructor
  · rintro ⟨vs, hvs, h⟩
    obtain rfl : vs = none := by simpa using hvs
    exact (plain_of_reads hletter (List.cons_ne_nil _ _) h).1
  · intro h
    obtain ⟨q, hq, hmem⟩ := reads_ending status
    exact ⟨none, rfl, reads_message h hq hmem⟩

theorem proper_some_iff :
    Proper message (some cont) status (body message (some cont) status) ↔
      Plain message ∧ Listed cont := by
  have hplain : Plain "content".toList := by decide
  have hletter : ∀ q, skipWs ("content".toList ++ '"' :: ':' :: '[' ::
    (cont ++ ']' :: ending status)) ≠ ',' :: q := by
    simp [skipWs, isWs]
  have hsplit : '[' :: (cont ++ ']' :: ending status) = '[' :: (cont ++ [']']) ++
    ending status := by simp
  rw [body_some]
  constructor
  · rintro ⟨vs, hvs, h⟩
    obtain ⟨vs, rfl⟩ := Option.isSome_iff_exists.mp hvs
    obtain ⟨hmessage, r, hmem, hr⟩ := plain_of_reads hletter (List.cons_ne_nil _ _) h
    refine ⟨hmessage, vs, ?_⟩
    obtain ⟨v, ms, heq, q, hv, hnext⟩ := hmem.member_inv hplain rfl
    obtain ⟨hfirst, rfl⟩ := List.cons.inj heq
    obtain rfl : _ = v := (Prod.mk.inj hfirst).2
    obtain ⟨q', hq, hlast⟩ := hnext.resolve_left fun hnil => absurd hnil.1 (List.cons_ne_nil _ _)
    change Reads _ ('[' :: (cont ++ ']' :: ending status)) q at hv
    obtain rfl : q = ending status := eq_ending hv.suffix hq hlast hr
    rw [hsplit] at hv
    exact hv.cut
  · rintro ⟨hmessage, vs, hvs⟩
    obtain ⟨q, hq, hmem⟩ := reads_ending status
    have hread := hvs.frame (ending status)
    rw [← hsplit] at hread
    exact ⟨some vs, rfl, reads_message hmessage rfl
      (.member rfl (hplain.chars _) rfl hread hq hmem)⟩

/-- **When a body is the object of its message, content and status.** -/
theorem proper_iff {content : Option Text} :
    Proper message content status (body message content status) ↔
    Plain message ∧ ∀ cont ∈ content, Listed cont := by
  rcases content with _ | cont
  · simpa using proper_none_iff
  · simpa using proper_some_iff

end Proper

/-! ### Requests -/

/-- The names, paths and exceptions that end up in a message need no escapes, and the quoted names
of domains and what a service answers are lists of JSON values. -/
def Request.Fits : Request → Prop
  | .getRegisteredDomains domains => Listed (mkString ", ".toList (domains.map quoted))
  | .getServicePort (.content text) => Listed text
  | .getServiceStatus (.content text) => Listed text
  | .getServiceStatus (.exception x) => Plain x
  | .createFileWatch userHomeDir fileName _ => Plain userHomeDir ∧ Plain fileName
  | .destroyFileWatch userHomeDir fileName => Plain userHomeDir ∧ Plain fileName
  | .cloneIgniterForUser (some e) => Plain e
  | .registerDomain domain .unknownHost => Plain domain
  | .registerDomain domain (.exception e) => domain ≠ [] → Plain e ∧ Plain domain
  | _ => True

theorem plain_joinChars {a b : Text} : Plain (joinChars a b) ↔ Plain a ∧ Plain b := by
  have hslash : PlainChar '/' := by decide
  have hnil : Plain [] := fun _ hc => absurd hc List.not_mem_nil
  have hcons : ∀ {s : Text}, Plain ('/' :: s) ↔
    Plain s := List.forall_mem_cons.trans (and_iff_right hslash)
  rw [joinChars]
  split_ifs with ha hb hlast hhead hhead
  · obtain rfl := List.isEmpty_iff.mp ha
    exact (and_iff_right hnil).symm
  · obtain rfl := List.isEmpty_iff.mp hb
    exact (and_iff_left hnil).symm
  · obtain ⟨t, rfl⟩ := List.head?_eq_some_iff.mp hhead
    rw [List.tail_cons, plain_append, hcons]
  · exact plain_append
  · exact plain_append
  · rw [plain_append, hcons]

theorem plainChar_of_isDigit {c : Char} (h : c.isDigit = true) : PlainChar c := by
  have hle : 48 ≤ c.toNat := (Char.isDigit_iff_toNat.mp h).1
  refine ⟨?_, ?_, by omega⟩
  · rintro rfl
    cases h
  · rintro rfl
    cases h

theorem plain_decimal (i : ℤ) : Plain (decimal i) := by
  intro c hc
  rcases Integers.mem_toString hc with rfl | hdigit
  · decide
  · exact plainChar_of_isDigit hdigit

theorem isValue_decimal (i : ℤ) : IsValue (decimal i) := (isNumber_toString i).isValue

theorem responds_done : Responds (.success .done) := proper_none_iff.mpr (by decide)

theorem responds_registered_iff (x : Option Text) : Responds (.success (registered x)) ↔
    ∀ t ∈ x, Plain t := by
  have hmessage : Plain "Domain registration failures: ".toList := by decide
  cases x with
  | none => exact iff_of_true responds_done fun _ ht => by cases ht
  | some x =>
    have h : Responds (.success (registered (some x))) ↔
      Plain ("Domain registration failures: ".toList ++ x) :=
      proper_none_iff
    rw [h, plain_append, and_iff_right hmessage]
    simp

theorem plain_validateDomain_iff (domain : Text) (found : Lookup) :
    (∀ t ∈ validateDomain domain found, Plain t) ↔ (Request.registerDomain domain found).Fits := by
  have some_iff : ∀ {x : Text}, (∀ t ∈ some x, Plain t) ↔ Plain x := by simp
  have fixed : ∀ {x : Text}, Plain x → ((∀ t ∈ some x, Plain t) ↔ True) :=
    fun h => iff_true_intro (some_iff.mpr h)
  by_cases hd : domain = []
  · have hv : validateDomain domain found = some "Domain cannot be empty!".toList := if_pos hd
    rw [hv]
    refine iff_of_true (some_iff.mpr (by decide)) ?_
    subst hd
    cases found with
    | unknownHost => exact fun _ hc => absurd hc List.not_mem_nil
    | exception e => exact fun h => absurd rfl h
    | _ => trivial
  · cases found with
    | notQualified =>
      have hv : validateDomain domain .notQualified =
          some "Domain must be fully qualified, registered domain name.".toList := if_neg hd
      rw [hv]
      exact fixed (by decide)
    | bound =>
      have hv : validateDomain domain .bound = none := if_neg hd
      rw [hv]
      exact iff_of_true (fun _ ht => by cases ht) trivial
    | notBound =>
      have hv : validateDomain domain .notBound =
          some "Domain is incorrectly bound or DNS not yet propagated.".toList := if_neg hd
      rw [hv]
      exact fixed (by decide)
    | unknownHost =>
      have hv : validateDomain domain .unknownHost = some ("Unknown host: ".toList ++ domain ++
        "!".toList) := if_neg hd
      rw [hv, some_iff, plain_append, plain_append]
      exact ⟨fun h => h.1.2, fun h => ⟨⟨by decide, h⟩, by decide⟩⟩
    | wrongServer =>
      have hv : validateDomain domain .wrongServer =
          some "Domain is bound to unknown or wrong server.".toList := if_neg hd
      rw [hv]
      exact fixed (by decide)
    | exception e =>
      have hv : validateDomain domain (.exception e) =
          some ("Exception ".toList ++ e ++ " for: ".toList ++ domain ++ "!".toList) := if_neg hd
      rw [hv, some_iff, plain_append, plain_append, plain_append, plain_append]
      exact ⟨fun h _ => ⟨h.1.1.1.2, h.1.2⟩, fun h =>
        ⟨⟨⟨⟨by decide, (h hd).1⟩, by decide⟩, (h hd).2⟩, by decide⟩⟩

/-- **When the answer to a request is sent as a proper response.** -/
theorem responds_answer_iff (request : Request) : Responds (.success request.answer) ↔
    request.Fits := by
  have success : ∀ {message : Text}, Responds (.success (.apiSuccess message none)) ↔
    Plain message := proper_none_iff
  have error : ∀ {message : Text}, Responds (.success (.apiError message none)) ↔ Plain message :=
    proper_none_iff
  have failed : ∀ {message : Text},
      Plain message → (Responds (.success (.apiError message none)) ↔ True) :=
    fun h => iff_true_intro (error.mpr h)
  have content : ∀ {message cont : Text}, Plain message →
      (Responds (.success (.apiSuccess message (some cont))) ↔ Listed cont) :=
    fun h => proper_some_iff.trans (and_iff_right h)
  have path : ∀ {message userHomeDir fileName : Text}, Plain message →
      (Plain (message ++ joinChars userHomeDir fileName) ↔ Plain userHomeDir ∧ Plain fileName) := by
    intro message userHomeDir fileName h
    rw [plain_append, plain_joinChars, and_iff_right h]
  have text : ∀ {message x : Text}, Plain message → (Plain (message ++ x) ↔ Plain x) :=
    fun h => plain_append.trans (and_iff_right h)
  cases request with
  | getRegisteredDomains domains => exact content (by decide)
  | getServicePort service =>
    cases service with
    | content text => exact content (by decide)
    | askTimeout => exact failed (by decide)
    | exception x => exact failed (by decide)
  | getServiceStatus service =>
    cases service with
    | content text => exact content (by decide)
    | askTimeout => exact failed (by decide)
    | exception x => exact error.trans (text (by decide))
  | createFileWatch userHomeDir fileName registered =>
    cases registered with
    | true => exact error.trans (path (by decide))
    | false => exact success.trans (path (by decide))
  | destroyFileWatch userHomeDir fileName => exact success.trans (path (by decide))
  | getUserPorts numbers =>
    refine (content (by decide)).trans (iff_true_intro (listed_mkString (by decide) fun x hx => ?_))
    obtain ⟨number, -, rfl⟩ := List.mem_map.mp hx
    exact isValue_decimal number
  | registerUserPort source =>
    cases source with
    | headless port =>
      exact (content (by decide)).trans (iff_true_intro (isValue_decimal port).listed)
    | systemManager port =>
      have hmessage : Plain ("Port registered: ".toList ++ decimal port) :=
        (text (by decide)).mpr (plain_decimal port)
      exact (content hmessage).trans (iff_true_intro (isValue_decimal port).listed)
    | failed => exact failed (by decide)
  | cloneIgniterForUser exception =>
    cases exception with
    | none => exact iff_true_intro responds_done
    | some e => exact error.trans (text (by decide))
  | registerDomain domain found =>
    exact (responds_registered_iff _).trans (plain_validateDomain_iff domain found)

theorem responds_timeout : Responds .timeout := by
  have h : Proper timedOut none 3 (body timedOut none 3) := proper_none_iff.mpr (by decide)
  exact h

theorem responds_failure_iff {x : Text} : Responds (.failure x) ↔ Plain x := by
  have hiff : Proper (crashed x) none 4 (body (crashed x) none 4) ↔ Plain (crashed x) :=
    proper_none_iff
  have hcrashed : Plain (crashed x) ↔ Plain x := by
    unfold crashed
    rw [plain_append, plain_append]
    exact ⟨fun h => h.1.2, fun h => ⟨⟨by decide, h⟩, by decide⟩⟩
  exact hiff.trans hcrashed

/-- After a quote in the message there is neither another member nor the end. -/
theorem not_denotes {m z : Text} {v : Json} (hm : Plain m) (hz : ∀ q, skipWs z ≠ ',' :: q ∧
      skipWs z ≠ '\x7d' :: q) :
    ¬ Denotes ('\x7b' :: '"' :: ("message".toList ++ '"' :: ':' :: ' ' :: '"' :: (m ++ '"' :: z)))
      v := by
  have hplain : Plain "message".toList := by decide
  rintro ⟨r, hread, -⟩
  change Reads _ ('\x7b' :: _) r at hread
  obtain ⟨ms, rfl, ⟨-, hnil⟩ | hmem⟩ := hread.object_inv
  · cases hnil
  · obtain ⟨v, ms', -, q, hv, hnext⟩ := hmem.member_inv hplain rfl
    change Reads _ ('"' :: _) q at hv
    obtain ⟨u, -, hchars⟩ := hv.string_inv
    obtain ⟨-, rfl⟩ := hm.eq_of_chars hchars
    rcases hnext with ⟨-, hq⟩ | ⟨q', hq, -⟩
    · exact (hz r).2 hq
    · exact (hz q').1 hq

/-- How waiting for the answer to a request ends. -/
inductive Outcome where
  | answered (request : Request)
  | timeout
  | failed (x : Text)

def Outcome.result : Outcome → Result
  | .answered request => .success request.answer
  | .timeout => .timeout
  | .failed x => .failure x

def Outcome.Fits : Outcome → Prop
  | .answered request => request.Fits
  | .timeout => True
  | .failed x => Plain x

/-- **Every answer is sent as the JSON object of its message, content and status exactly when** the
names, paths and texts in the message need no escapes and the content is a list of JSON values. -/
theorem responds_iff (outcome : Outcome) : Responds outcome.result ↔ outcome.Fits := by
  cases outcome with
  | answered request => exact responds_answer_iff request
  | timeout => exact iff_true_intro responds_timeout
  | failed x => exact responds_failure_iff

/-- The file name `a"b`. -/
def quoteInName : Request := .createFileWatch "/Users/501".toList "a\"b".toList false

/-- The response is not JSON at all. -/
theorem not_responds_quoteInName : ¬ Responds (.success quoteInName.answer) ∧
    ∀ v, ¬ Denotes (apiRespond (.success quoteInName.answer)) v := by
  have hmessage : Plain "File Event watch registered successfully for /Users/501/a".toList := by
    decide
  have hletter : ∀ z q, skipWs ('b' :: z) ≠ ',' :: q ∧ skipWs ('b' :: z) ≠ '\x7d' :: q := by
    simp [skipWs, isWs]
  have hbody : apiRespond (.success quoteInName.answer) = '\x7b' :: '"' ::
    ("message".toList ++ '"' :: ':' :: ' ' ::
      '"' :: ("File Event watch registered successfully for /Users/501/a".toList ++ '"' :: 'b' ::
        '"' :: ending 0)) := by
    decide
  constructor
  · rw [responds_answer_iff]
    exact fun h => absurd h.2 (by decide)
  · intro v
    rw [hbody]
    exact not_denotes hmessage (hletter _)

end ServeD.Managers.WebApi
