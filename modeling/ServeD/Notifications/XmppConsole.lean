import Mathlib.Data.List.Basic
import ServeD.Lib.Exceptions
import ServeD.Lib.Segments

/-! # The console of the XMPP gate

`SvdXMPPGate.processMessage`: a message is taken apart into words, and these are matched. Some of
the matches have others inside, which are not for all words, and maps that do not have all keys.
What is meant by the words is `denoted`; `processMessage_eq` says what becomes of a message by it.
-/

namespace ServeD.Notifications.XmppConsole

open ServeD.Lib.Exceptions ServeD.Lib.Segments

/-! ### Messages -/

/-- What Java does with texts, and the order in which a map has its keys. -/
structure Java where
  toLowerCase : String → String
  toUpper : Char → Char
  keys : List String → List String
  perm_keys : ∀ l, (keys l).Perm l

/-- `serviceName.capitalize`. -/
def Java.capitalize (java : Java) (text : String) : String :=
  match text.toList with
  | [] => ""
  | c :: cs => String.ofList (java.toUpper c :: cs)

/-- A message of Smack; it may have no body. -/
structure Message where
  getBody : Option String
  getFrom : String

/-- What the account manager is told. -/
inductive Command where
  | readLogFile (serviceName : String) (pattern : Option String)
  | registerDomain (domain : String)
  | storeServices
  | getStoredServices
  | spawnServices
  | terminateServices
  | getRunningServices
  | showAvailableServices
  | spawnService (name : String)
  | terminateService (name : String)
  | getServiceStatus (name : String)
  deriving DecidableEq, Repr

/-- A call of `send`, or a message to the account manager. -/
inductive Action where
  | send (message : String)
  | tell (command : Command)
  deriving DecidableEq, Repr

inductive Failure where
  | NullPointerException
  | StringIndexOutOfBoundsException
  | MatchError
  | NoSuchElementException
  deriving DecidableEq, Repr

/-- What is done, in order. -/
abbrev Console := EStateM Failure (List Action)

def act (action : Action) : Console Unit := modify fun actions => actions ++ [action]

def send (message : String) : Console Unit := act (.send message)

/-! ### Texts -/

/-- What is put in front of a message, by its first character. -/
def mark (currentVPNHost : String) : Char → String
  | 'W' | 'w' => "WARN -- " ++ currentVPNHost ++ " -- "
  | 'E' | 'e' => "ERROR == " ++ currentVPNHost ++ " == "
  | 'F' | 'f' => "FATAL ## " ++ currentVPNHost ++ " ## "
  | 'D' | 'd' => "DEBUG -- " ++ currentVPNHost ++ " -- "
  | 'I' | 'i' => "INFO -- " ++ currentVPNHost ++ " -- "
  | _ => "INFO -- " ++ currentVPNHost ++ " -- "

def formatMessage (currentVPNHost msg : String) : Console String :=
  match msg.toList with
  | c :: _ :: rest => return mark currentVPNHost c ++ String.ofList rest
  | _ => throw .StringIndexOutOfBoundsException

/-- The commands that `help` knows, with their own, and a text for each of these. -/
def commands : List (String × List (String × String)) :=
  [("services",
      [("remove", "Remove services"),
        ("start", "Start services (will also install services on demand if not already built)"),
        ("stop", "Stop services"),
        ("status", "Show services details"),
        ("store", "Store service state"),
        ("stored", "Show stored services")]),
    ("service",
      [("remove", "Removes service"),
        ("start", "Starts service (will also install service on demand if not already built)"),
        ("stop", "Stops service"),
        ("status", "Shows service details")]),
    ("show",
      [("logs", "Shows logs from service given as a param"),
        ("whoami", "Shows current user name"),
        ("scheduler", "Shows info about scheduled tasks")]),
    ("register", [("domain", "Registers domain")]),
    ("unregister", [("domain", "Unregisters domain")])]

/-- `map(key)`. -/
def apply {α : Type} (map : List (String × α)) (key : String) : Console α :=
  match map.lookup key with
  | some value => return value
  | none => throw .NoSuchElementException

/-! ### Words -/

/-- The outer match. -/
inductive Request where
  | help
  | helpOn (patt : String)
  | helpInner (patt inner : String)
  | show (command : String)
  | showArgument (command argument : String) (pattern : Option String)
  | register (command argument : String)
  | services (command : String)
  | service (argument command : String)
  | anything (words : List String)
  deriving DecidableEq, Repr

def request : List String → Request
  | ["help"] => .help
  | ["help", patt] => .helpOn patt
  | ["help", patt, inner] => .helpInner patt inner
  | ["show", command] => .show command
  | ["show", command, argument] => .showArgument command argument none
  | ["show", command, argument, pattern] => .showArgument command argument (some pattern)
  | "register" :: command :: argument :: _ => .register command argument
  | ["services", command] => .services command
  | ["service", argument, command] => .service argument command
  | words => .anything words

section Handling

variable (java : Java) (currentVPNHost userName : String) (message : Message)

/-- `msg.toLowerCase.split(" ").toList`. -/
def msgList (msg : String) : List String :=
  (split ' ' (java.toLowerCase msg).toList).map String.ofList

/-- One case of the outer match. -/
def handle : Request → Console Unit
  | .help => send ("help -> " ++ ", ".intercalate (java.keys (commands.map Prod.fst)))
  | .helpOn patt => do
    let inner ← apply commands (java.toLowerCase patt)
    send (patt ++ " -> " ++ ", ".intercalate (java.keys (inner.map Prod.fst)))
  | .helpInner patt inner => do
    let texts ← apply commands (java.toLowerCase patt)
    send (← apply texts inner)
  | .show command =>
    match java.toLowerCase command with
    | "whoami" => send ("You're authorized as " ++ userName ++ ". Writing from: " ++
      message.getFrom)
    | "scheduler" => send "dsd"
    | _ => throw .MatchError
  | .showArgument command argument pattern =>
    match java.toLowerCase command with
    | "log" => act (.tell (.readLogFile argument pattern))
    | _ => throw .MatchError
  | .register command argument =>
    match java.toLowerCase command with
    | "domain" => act (.tell (.registerDomain (java.toLowerCase argument)))
    | _ => throw .MatchError
  | .services command =>
    match java.toLowerCase command with
    | "store" | "save" => act (.tell .storeServices)
    | "stored" | "saved" => act (.tell .getStoredServices)
    | "start" => act (.tell .spawnServices)
    | "stop" => act (.tell .terminateServices)
    | "status" | "list" | "all" | "show" | "running" | "run" | "spawned" =>
      act (.tell .getRunningServices)
    | "avail" | "available" => act (.tell .showAvailableServices)
    | _ => throw .MatchError
  | .service argument command =>
    match java.toLowerCase command with
    | "start" => act (.tell (.spawnService (java.capitalize argument)))
    | "stop" => act (.tell (.terminateService (java.capitalize argument)))
    | "status" | "list" | "all" | "show" =>
      act (.tell (.getServiceStatus (java.capitalize argument)))
    | _ => throw .MatchError
  | .anything words => do
    send (← formatMessage currentVPNHost ("E:Try 'help'. No such command: " ++
      " ".intercalate words))

def processMessage : Console Unit :=
  match message.getBody with
  | none => throw .NullPointerException
  | some msg => do
    let words := msgList java msg
    send (← formatMessage currentVPNHost ("I:> '" ++ msg ++ "' from " ++ message.getFrom))
    handle java currentVPNHost userName message (request words)

/-! ### What is meant -/

/-- The answers of `show`. -/
def answers : List (String × String) :=
  [("whoami", "You're authorized as " ++ userName ++ ". Writing from: " ++ message.getFrom),
    ("scheduler", "dsd")]

/-- The commands for all services. -/
def servicesCommands : List (String × Command) :=
  [("store", .storeServices), ("save", .storeServices), ("stored", .getStoredServices),
    ("saved", .getStoredServices), ("start", .spawnServices), ("stop", .terminateServices),
    ("status", .getRunningServices), ("list", .getRunningServices), ("all", .getRunningServices),
    ("show", .getRunningServices), ("running", .getRunningServices), ("run", .getRunningServices),
    ("spawned", .getRunningServices), ("avail", .showAvailableServices),
      ("available", .showAvailableServices)]

/-- The commands for one service. -/
def serviceCommands : List (String × (String → Command)) :=
  [("start", .spawnService), ("stop", .terminateService), ("status", .getServiceStatus),
    ("list", .getServiceStatus), ("all", .getServiceStatus), ("show", .getServiceStatus)]

/-- What a request asks for. -/
def denoted : Request → Option Action
  | .help => some (.send ("help -> " ++ ", ".intercalate (java.keys (commands.map Prod.fst))))
  | .helpOn patt => (commands.lookup (java.toLowerCase patt)).map fun inner =>
      .send (patt ++ " -> " ++ ", ".intercalate (java.keys (inner.map Prod.fst)))
  | .helpInner patt inner =>
    ((commands.lookup (java.toLowerCase patt)).bind fun texts => texts.lookup inner).map .send
  | .show command => ((answers userName message).lookup (java.toLowerCase command)).map .send
  | .showArgument command argument pattern =>
    if java.toLowerCase command = "log" then some (.tell (.readLogFile argument pattern)) else none
  | .register command argument =>
    if java.toLowerCase command = "domain" then some (.tell
      (.registerDomain (java.toLowerCase argument))) else none
  | .services command => (servicesCommands.lookup (java.toLowerCase command)).map .tell
  | .service argument command => (serviceCommands.lookup (java.toLowerCase command)).map fun ask =>
      .tell (ask (java.capitalize argument))
  | .anything _ => none

/-- The reply to anything else. -/
def noSuchCommand (words : List String) : String :=
  "ERROR == " ++ currentVPNHost ++ " == Try 'help'. No such command: " ++ " ".intercalate words

/-- **Handled**: nothing is raised, and after the echo there is what the words ask for, one command
to the account manager or one reply, or the reply that there is no such command. -/
def Handled : Prop :=
  ∃ msg, message.getBody = some msg ∧
    processMessage java currentVPNHost userName message [] =
      .ok () [.send ("INFO -- " ++ currentVPNHost ++ " -- > '" ++ msg ++ "' from " ++
        message.getFrom), (denoted java userName message (request (msgList java msg))).getD
          (.send (noSuchCommand currentVPNHost (msgList java msg)))]

/-- The requests for which an inner match has no case, or a map no key. -/
def Unmatched : Request → Prop
  | .helpOn patt => java.toLowerCase patt ∉ commands.map Prod.fst
  | .helpInner patt inner =>
    ∀ texts, commands.lookup (java.toLowerCase patt) = some texts → inner ∉ texts.map Prod.fst
  | .show command => java.toLowerCase command ∉ ["whoami", "scheduler"]
  | .showArgument command _ _ => java.toLowerCase command ≠ "log"
  | .register command _ => java.toLowerCase command ≠ "domain"
  | .services command => java.toLowerCase command ∉ ["store", "save", "stored", "saved", "start",
    "stop", "status",
      "list", "all", "show", "running", "run", "spawned", "avail", "available"]
  | .service _ command => java.toLowerCase command ∉ ["start", "stop", "status", "list",
    "all", "show"]
  | _ => False

end Handling

/-! ### Requests -/

section Requests

variable (java : Java) (currentVPNHost userName : String) (message : Message)

/-- What is asked for, or an exception. -/
def perform (e : Failure) : Option Action → Console Unit
  | some action => act action
  | none => throw e

theorem lookup_eq_none {α : Type} {key : String} {l : List (String × α)} :
    l.lookup key = none ↔ key ∉ l.map Prod.fst := by
  rw [List.lookup_eq_none_iff, List.mem_map, not_exists]
  refine forall_congr' fun p => ?_
  rw [bne_iff_ne, not_and]
  exact imp_congr_right fun _ => ne_comm

theorem apply_bind {α : Type} (l : List (String × α)) (key : String) (f : α → Action) :
    (apply l key >>= fun value => act (f value)) =
      perform .NoSuchElementException ((l.lookup key).map f) := by
  unfold apply
  rcases l.lookup key with _ | value
  · rfl
  · rfl

/-- A match with the words of a table, and none else. -/
theorem perform_lookup {α : Type} {l : List (String × α)} {c : String} {f : α → Action}
    (h : c ∉ l.map Prod.fst) :
    perform .MatchError ((l.lookup c).map f) = throw .MatchError := by
  rw [lookup_eq_none.mpr h]
  rfl

theorem handle_show (command : String) :
    handle java currentVPNHost userName message (.show command) =
      perform .MatchError (denoted java userName message (.show command)) := by
  unfold handle denoted
  dsimp only
  split
  · rename_i h
    rw [h]
    rfl
  · rename_i h
    rw [h]
    rfl
  · exact (perform_lookup (by simp_all [answers])).symm

theorem handle_services (command : String) :
    handle java currentVPNHost userName message (.services command) =
      perform .MatchError (denoted java userName message (.services command)) := by
  unfold handle denoted
  dsimp only
  split
  case h_16 => exact (perform_lookup (by simp_all [servicesCommands])).symm
  all_goals
    rename_i h
    rw [h]
    rfl

theorem handle_service (argument command : String) :
    handle java currentVPNHost userName message (.service argument command) =
      perform .MatchError (denoted java userName message (.service argument command)) := by
  unfold handle denoted
  dsimp only
  split
  case h_7 =>
    have hnone : java.toLowerCase command ∉ serviceCommands.map Prod.fst := by
      simp_all [serviceCommands]
    exact (perform_lookup hnone).symm
  all_goals
    rename_i h
    rw [h]
    rfl

theorem handle_helpInner (patt inner : String) :
    handle java currentVPNHost userName message (.helpInner patt inner) =
      perform .NoSuchElementException (denoted java userName message (.helpInner patt inner)) := by
  unfold handle denoted
  dsimp only
  rcases hl : commands.lookup (java.toLowerCase patt) with _ | texts
  · unfold apply
    rw [hl]
    rfl
  · rw [Option.bind_some, ← apply_bind]
    nth_rewrite 1 [apply]
    rw [hl]
    rfl

theorem handle_showArgument (command argument : String) (pattern : Option String) :
    handle java currentVPNHost userName message (.showArgument command argument pattern) =
      perform .MatchError (denoted java userName message
        (.showArgument command argument pattern)) := by
  unfold handle denoted
  dsimp only
  split
  · rename_i h
    rw [if_pos h]
    rfl
  · rename_i h
    rw [if_neg h]
    rfl

theorem handle_register (command argument : String) :
    handle java currentVPNHost userName message (.register command argument) =
      perform .MatchError (denoted java userName message (.register command argument)) := by
  unfold handle denoted
  dsimp only
  split
  · rename_i h
    rw [if_pos h]
    rfl
  · rename_i h
    rw [if_neg h]
    rfl

/-- **What is asked for is done**, if the request is one of those that are matched. -/
theorem handle_eq (r : Request) (hr : ∀ words, r ≠ .anything words) :
    ∃ e, handle java currentVPNHost userName message r = perform e
      (denoted java userName message r) := by
  cases r with
  | help => exact ⟨.MatchError, rfl⟩
  | helpOn patt => exact ⟨_, apply_bind commands _ _⟩
  | helpInner patt inner =>
    exact ⟨_, handle_helpInner java currentVPNHost userName message patt inner⟩
  | «show» command => exact ⟨_, handle_show java currentVPNHost userName message command⟩
  | showArgument command argument pattern =>
    exact ⟨_, handle_showArgument java currentVPNHost userName message command argument pattern⟩
  | register command argument =>
    exact ⟨_, handle_register java currentVPNHost userName message command argument⟩
  | services command => exact ⟨_, handle_services java currentVPNHost userName message command⟩
  | service argument command =>
    exact ⟨_, handle_service java currentVPNHost userName message argument command⟩
  | anything words => exact absurd rfl (hr words)

/-- Nothing is asked for by the requests that are not matched, and by anything else. -/
theorem denoted_eq_none (r : Request) :
    denoted java userName message r = none ↔ Unmatched java r ∨ ∃ words, r = .anything words := by
  rcases r with _ | patt | ⟨patt, inner⟩ | command | ⟨command, argument, pattern⟩ |
    ⟨command, argument⟩ |
    command | ⟨argument, command⟩ | words
  case anything => exact ⟨fun _ => .inr ⟨words, rfl⟩, fun _ => rfl⟩
  all_goals
    rw [or_iff_left (fun ⟨_, h⟩ => by cases h)]
    unfold denoted Unmatched
    dsimp only
  · exact ⟨fun h => (by cases h), False.elim⟩
  · rw [Option.map_eq_none_iff, lookup_eq_none]
  · rw [Option.map_eq_none_iff]
    rcases commands.lookup (java.toLowerCase patt) with _ | texts
    · exact ⟨fun _ _ h => (by cases h), fun _ => rfl⟩
    · rw [Option.bind_some, lookup_eq_none]
      exact ⟨fun h _ ht => Option.some.inj ht ▸ h, fun h => h texts rfl⟩
  · rw [Option.map_eq_none_iff, lookup_eq_none]
    rfl
  · exact ite_eq_right_iff.trans ⟨fun h hc => (by cases h hc), fun h hc => absurd hc h⟩
  · exact ite_eq_right_iff.trans ⟨fun h hc => (by cases h hc), fun h hc => absurd hc h⟩
  · rw [Option.map_eq_none_iff, lookup_eq_none]
    rfl
  · rw [Option.map_eq_none_iff, lookup_eq_none]
    rfl

end Requests

/-! ### Messages -/

section Messages

variable (java : Java) (currentVPNHost userName : String) (message : Message)

theorem formatMessage_eq {msg rest : String} {c d : Char} (h : msg.toList = c :: d :: rest.toList)
    (actions : List Action) :
    formatMessage currentVPNHost msg actions = .ok (mark currentVPNHost c ++ rest) actions := by
  unfold formatMessage
  rw [h]
  show EStateM.Result.ok _ _ = _
  rw [String.ofList_toList]

theorem formatMessage_anything (words : List String) (actions : List Action) :
    formatMessage currentVPNHost ("E:Try 'help'. No such command: " ++ " ".intercalate words)
      actions =
      .ok (noSuchCommand currentVPNHost words) actions := by
  have htext : ("E:Try 'help'. No such command: " ++ " ".intercalate words).toList =
      'E' :: ':' :: ("Try 'help'. No such command: " ++ " ".intercalate words).toList := by simp
  have hjoin : " == Try 'help'. No such command: " = " == " ++ "Try 'help'. No such command: " := by
    decide
  have hmark : mark currentVPNHost 'E' = "ERROR == " ++ currentVPNHost ++ " == " := rfl
  rw [formatMessage_eq currentVPNHost htext, hmark, noSuchCommand, hjoin]
  simp only [String.append_assoc]

theorem formatMessage_echo (msg : String) (actions : List Action) :
    formatMessage currentVPNHost ("I:> '" ++ msg ++ "' from " ++ message.getFrom) actions =
      .ok ("INFO -- " ++ currentVPNHost ++ " -- > '" ++ msg ++ "' from " ++
        message.getFrom) actions := by
  have htext : ("I:> '" ++ msg ++ "' from " ++ message.getFrom).toList =
      'I' :: ':' :: ("> '" ++ msg ++ "' from " ++ message.getFrom).toList := by simp
  have hjoin : " -- > '" = " -- " ++ "> '" := by decide
  have hmark : mark currentVPNHost 'I' = "INFO -- " ++ currentVPNHost ++ " -- " := rfl
  rw [formatMessage_eq currentVPNHost htext, hmark, hjoin]
  simp only [String.append_assoc]

/-- A message with a body is echoed, and then its words are handled. -/
theorem processMessage_eq {msg : String} (h : message.getBody = some msg) :
    processMessage java currentVPNHost userName message [] =
      handle java currentVPNHost userName message (request (msgList java msg))
        [.send ("INFO -- " ++ currentVPNHost ++ " -- > '" ++ msg ++ "' from " ++
          message.getFrom)] := by
  unfold processMessage
  rw [h]
  exact (bind_ok (formatMessage_echo currentVPNHost message msg [])).trans (bind_ok rfl)

/-- The words are the ones that were not found. -/
theorem words_eq_of_request {words found : List String} (h : request words = .anything found) :
    found = words := by
  unfold request at h
  split at h
  all_goals cases h
  rfl

/-- **A message is handled, unless it has no body or its words are not matched**. -/
theorem handled_iff : Handled java currentVPNHost userName message ↔
    ∃ msg, message.getBody = some msg ∧ ¬ Unmatched java (request (msgList java msg)) := by
  unfold Handled
  refine exists_congr fun msg => and_congr_right fun hbody => ?_
  rw [processMessage_eq java currentVPNHost userName message hbody]
  have hnone := denoted_eq_none java userName message (request (msgList java msg))
  by_cases hany : ∃ words, request (msgList java msg) = .anything words
  · obtain ⟨words, hr⟩ := hany
    rw [hr, words_eq_of_request hr]
    exact ⟨fun _ => id, fun _ => bind_ok (formatMessage_anything currentVPNHost _ _)⟩
  · obtain ⟨e, he⟩ := handle_eq java currentVPNHost userName message _ fun words hr =>
      hany ⟨words, hr⟩
    rw [he]
    rw [or_iff_left hany] at hnone
    rcases hd : denoted java userName message (request (msgList java msg)) with _ | action
    · exact ⟨fun h => (by cases h), fun h => absurd (hnone.mp hd) h⟩
    · refine ⟨fun _ h => ?_, fun _ => rfl⟩
      cases (hnone.mpr h).symm.trans hd

end Messages

/-- Texts of ASCII characters. -/
def ascii : Java :=
  ⟨fun text => String.ofList (text.toList.map Char.toLower), Char.toUpper, id, fun l => .refl l⟩

/-- Help for an unknown command. -/
theorem not_handled_foo :
    ¬ Handled ascii "10.0.0.1" "guest" ⟨some "help foo", "dmilith@verknowsys.com"⟩ := by
  rintro ⟨msg, hbody, h⟩
  cases hbody
  have herror : EStateM.Result.error Failure.NoSuchElementException _ = _ := h
  cases herror

end ServeD.Notifications.XmppConsole
