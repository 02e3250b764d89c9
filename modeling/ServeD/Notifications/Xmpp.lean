import ServeD.Lib.Runs
import Mathlib.Data.List.Count

/-! # The XMPP gate

`SvdXMPPGate`: `Notify.Connect` opens the connection and creates a chat for every configured
recipient, `Notify.Message` is sent to every chat. Smack is outside: an event tells which of its
calls succeed. A call that fails raises, and all of them are made inside a `try`.

The list of chats is never emptied, neither by `Notify.Disconnect` nor by the next `Notify.Connect`.
So it has all chats that were ever created (`chats_after`), and every message reaches each recipient
at most once exactly when no recipient's chat has been created twice before it (`delivered_iff`). -/

namespace ServeD.Notifications.Xmpp

open ServeD.Lib.Runs

/-- `Presence.Mode`, as far as it is used. -/
inductive Mode where
  | available
  deriving DecidableEq, Repr

/-- The gate: the participants of its chats, and the presence. -/
structure Gate where
  chats : List String
  status : Option String
  mode : Option Mode
  deriving DecidableEq, Repr

def Gate.init : Gate := ⟨[], none, none⟩

/-- A message with what Smack does: whether `connect` and `login` succeed,
and for whom `createChat` does. -/
inductive Event where
  | connect (connects logsIn : Bool) (creates : String → Bool)
  | disconnect
  | status (status : String)
  | message (message : String)

variable (recipients : List String)

/-- The chats that an event creates. -/
def created : Event → List String
  | .connect connects logsIn creates => if connects && logsIn then recipients.filter creates else []
  | _ => []

/-- `SvdXMPPGate.receive`. -/
def Gate.receive (g : Gate) : Event → Gate
  | .connect connects logsIn creates =>
    if connects && logsIn then
      ⟨recipients.foldl (fun chats user => if creates user then chats ++ [user] else chats) g.chats,
        some "ServeD® XMPP Notification Gate", some .available⟩
    else g
  | .disconnect => g
  | .status status => { g with status := some status }
  | .message _ => g

/-- `send`: the calls of `sendMessage`, each with the participant of its chat. -/
def Gate.send (g : Gate) (message : String) : List (String × String) :=
  g.chats.map fun chatRecipient => (chatRecipient, message)

/-- The gate after the events. -/
def after (evs : List Event) : Gate := run (Gate.receive recipients) .init evs

/-- The recipients whose chats were created in the current session: it begins when the gate has
logged in, and ends when it disconnects. -/
def session : List Event → List String :=
  List.foldl (fun chats e =>
    match e with
    | .connect true true creates => recipients.filter creates
    | .disconnect => []
    | _ => chats) []

/-- A message is sent to each recipient at most once, and once to those of the current session. -/
structure Delivered (evs : List Event) (message : String) : Prop where
  atMostOnce : ∀ r ∈ recipients, ((after recipients evs).send message).count (r, message) ≤ 1
  current : ∀ r ∈ session recipients evs, ((after recipients evs).send message).count
    (r, message) = 1

/-- No recipient's chat has been created twice. -/
def BoundOnce (evs : List Event) : Prop :=
  ∀ r ∈ recipients, (evs.flatMap (created recipients)).count r ≤ 1

/-! ### The chats -/

theorem foldl_chats (creates : String → Bool) : ∀ (users chats : List String),
    users.foldl (fun chats user => if creates user then chats ++ [user] else chats) chats =
      chats ++ users.filter creates
  | [], chats => by simp
  | user :: users, chats => by
    rw [List.foldl_cons, foldl_chats creates users]
    by_cases h : creates user
    · simp [h]
    · simp [h]

variable {recipients}

theorem chats_receive (g : Gate) (e : Event) :
    (g.receive recipients e).chats = g.chats ++ created recipients e := by
  cases e with
  | connect connects logsIn creates =>
    simp only [Gate.receive, created]
    split_ifs with h
    · exact foldl_chats creates recipients g.chats
    · exact (List.append_nil _).symm
  | _ => exact (List.append_nil _).symm

/-- The gate has all chats that were ever created. -/
theorem chats_after (evs : List Event) :
    (after recipients evs).chats = evs.flatMap (created recipients) := by
  induction evs using List.reverseRecOn with
  | nil => rfl
  | append_singleton evs e ih =>
    rw [after, run_concat, chats_receive, List.flatMap_append, List.flatMap_singleton]
    change (after recipients evs).chats ++ _ = _
    rw [ih]

theorem count_send (g : Gate) (r message : String) :
    (g.send message).count (r, message) = g.chats.count r := by
  unfold Gate.send
  exact List.count_map_of_injective _ _ (fun a b h => (Prod.mk.inj h).1) r

theorem session_concat (evs : List Event) (e : Event) :
    session recipients (evs ++ [e]) =
      match e with
      | .connect true true creates => recipients.filter creates
      | .disconnect => []
      | _ => session recipients evs := by
  simp [session]

/-- The chats of the current session are among them, and are of recipients. -/
theorem mem_session {r : String} {evs : List Event} (h : r ∈ session recipients evs) :
    r ∈ evs.flatMap (created recipients) ∧ r ∈ recipients := by
  induction evs using List.reverseRecOn with
  | nil => cases h
  | append_singleton evs e ih =>
    rw [session_concat] at h
    rw [List.flatMap_append, List.mem_append, List.flatMap_singleton]
    split at h
    · exact ⟨.inr h, (List.mem_filter.mp h).1⟩
    · cases h
    · exact ⟨.inl (ih h).1, (ih h).2⟩

/-! ### Messages -/

theorem delivered_iff_boundOnce (evs : List Event) (message : String) :
    Delivered recipients evs message ↔ BoundOnce recipients evs := by
  have hcount : ∀ r, ((after recipients evs).send message).count (r, message) =
      (evs.flatMap (created recipients)).count r := by
    intro r
    rw [count_send, chats_after]
  constructor
  · intro h r hr
    rw [← hcount]
    exact h.atMostOnce r hr
  · intro h
    refine ⟨fun r hr => ?_, fun r hr => ?_⟩
    · rw [hcount]
      exact h r hr
    · obtain ⟨hmem, hrec⟩ := mem_session hr
      have hpos := List.count_pos_iff.mpr hmem
      have hone := h r hrec
      rw [hcount]
      omega

/-- **Every message of a run reaches each recipient at most once, and those of the current session
once, exactly when before every message no recipient's chat has been created twice.** -/
theorem delivered_iff (recipients : List String) (evs : List Event) :
    EachEntry (fun before e => ∀ m, e = .message m → Delivered recipients before m) evs ↔
      EachEntry (fun before e => ∀ m, e = .message m → BoundOnce recipients before) evs := by
  unfold EachEntry
  simp only [delivered_iff_boundOnce]

/-- The gate connects again after the session has ended. -/
def reconnects : List Event :=
  [.connect true true fun _ => true, .disconnect, .connect true true fun _ =>
    true, .message "pushed"]

/-- The message is sent twice. -/
theorem not_delivered_reconnects :
    ¬ EachEntry (fun before e => ∀ m, e = .message m →
        Delivered ["dmilith@verknowsys.com"] before m)
      reconnects := by
  intro h
  have hd := h (reconnects.take 3) (.message "pushed") [] rfl "pushed" rfl
  have hone := hd.atMostOnce "dmilith@verknowsys.com" (by simp)
  revert hone
  decide

end ServeD.Notifications.Xmpp
