import ServeD.Lib.Runs
import ServeD.Lib.Texts

/-! # Counting notifications

`notification`, which is to count the messages in the map `history` and to write a file for a
message that is new. The counter is incremented where it is positive already, so that it stays 0 and
every message is new. The name of the file is a hash of as many bytes of the message in UTF-8 as it
has units in UTF-16. A message of the level `FATAL` ends the process as soon as it is logged: it has
no counter and no file, and there are no calls behind it.

* `history_run`: no call changes a counter;
* `notified_iff`: what is left of the counters, of the files that are written once, and of the
  names. -/

namespace ServeD.Notifications.Counters

open ServeD.Lib.Runs ServeD.Lib.Texts

/-! ### Calls -/

structure DateTime where
  day : Fin 32
  hour : Fin 24
  minute : Fin 60
  second : Fin 60
  deriving DecidableEq, Repr

inductive NotificationLevels where
  | NOTIFY
  | WARNING
  | ERROR
  | FATAL
  deriving DecidableEq, Repr

structure Call where
  now : DateTime
  notificationMessage : Text
  serviceName : Text
  level : NotificationLevels
  deriving DecidableEq, Repr

def twoDigits (n : ℕ) : Text := (if n < 10 then ['0'] else []) ++ Nat.toDigits 10 n

/-- `now.toString("dd-hh:mm")` -/
def DateTime.toMinutes (now : DateTime) : Text :=
  twoDigits now.day ++ "-".toList ++ twoDigits now.hour ++ ":".toList ++ twoDigits now.minute

/-- `now.toString("dd-hh:mm:ss - ")` -/
def DateTime.toSeconds (now : DateTime) : Text :=
  now.toMinutes ++ ":".toList ++ twoDigits now.second ++ " - ".toList

/-- The message with the time in front. -/
def message (c : Call) : Text :=
  if c.now.toMinutes.isPrefixOf c.notificationMessage then c.notificationMessage
  else c.now.toSeconds ++ c.notificationMessage

def levelPostfix : NotificationLevels → Text
  | .NOTIFY => ".notice".toList
  | .WARNING => ".warning".toList
  | .ERROR => ".error".toList
  | .FATAL => ".fatal".toList

/-! ### Files -/

def SOFTWARE_DATA_DIR : Text := "/SoftwareData".toList

def NOTIFICATIONS_DATA_DIR : Text := "/.notifications/".toList

def NOTIFICATIONS_HISTORY_DATA_DIR : Text := "/.notifications-history/".toList

def hexDigit (n : ℕ) : Char := "0123456789abcdef".toList.getD n '0'

/-- `QByteArray::toHex` -/
def toHex (bytes : List UInt8) : Text := bytes.flatMap fun b =>
    [hexDigit (b.toNat / 16), hexDigit (b.toNat % 16)]

/-- `hash->addData(content.toUtf8(), content.length())`, the bytes that are hashed. -/
def hashed (content : Text) : List UInt8 := (utf8 content).take (utf16 content).length

/-- What a call does to the files. -/
inductive Effect where
  | getOrCreateDir (path : Text)
  /-- `writeToFile`, with the end of line behind the contents -/
  | writeToFile (fileName contents : Text)
  | moveOldNotificationsToHistoryAndCleanHistory (notificationRoot historyRoot : Text)
  deriving DecidableEq, Repr

def Effect.file? : Effect → Option (Text × Text)
  | .writeToFile fileName contents => some (fileName, contents ++ "\n".toList)
  | _ => none

section Notification

variable (sha1 : List UInt8 → List UInt8) (HOME : Text)

def notificationFileName (m : Text) (level : NotificationLevels) : Text :=
  toHex (sha1 (hashed m)) ++ levelPostfix level

/-- `notificationRoot` and `historyRoot` -/
def roots (serviceName : Text) : Text × Text :=
  if serviceName = [] then
    (HOME ++ SOFTWARE_DATA_DIR ++ NOTIFICATIONS_DATA_DIR, HOME ++ SOFTWARE_DATA_DIR ++
      NOTIFICATIONS_HISTORY_DATA_DIR)
  else
    (HOME ++ SOFTWARE_DATA_DIR ++ ("/".toList ++ serviceName ++ NOTIFICATIONS_DATA_DIR),
      HOME ++ SOFTWARE_DATA_DIR ++ "/".toList ++ serviceName ++ NOTIFICATIONS_HISTORY_DATA_DIR)

/-- The file of a message of a service. -/
def notificationFile (m serviceName : Text) (level : NotificationLevels) : Text :=
  (roots HOME serviceName).1 ++ "/".toList ++ notificationFileName sha1 m level

/-- `notification`, from the values of the map `history`, which are 0 for new keys. There is no
result where `logFatal` aborts the process. -/
def notification (history : Text → ℤ) (c : Call) : Option ((Text → ℤ) × List Effect) :=
  let m := message c
  if c.level = .FATAL then none
  else if history m > 0 then some (Function.update history m (history m + 1), [])
  else
    let (notificationRoot, historyRoot) := roots HOME c.serviceName
    some (history, [.getOrCreateDir notificationRoot, .getOrCreateDir historyRoot,
      .writeToFile (notificationFile sha1 HOME m c.serviceName c.level) m,
      .moveOldNotificationsToHistoryAndCleanHistory notificationRoot historyRoot])

/-- `history` after some calls, or `none` if the process is over. -/
def historyAfter (calls : List Call) : Option (Text → ℤ) :=
  run (fun h c => h.bind fun history => (notification sha1 HOME history c).map Prod.fst)
    (some fun _ => 0) calls

/-- The files that a call writes after others, with what they contain. -/
def written (before : List Call) (c : Call) : List (Text × Text) :=
  (((historyAfter sha1 HOME before).bind fun history => notification sha1 HOME history c).map
    Prod.snd).getD []
    |>.filterMap Effect.file?

/-! ### What was meant -/

variable (calls : List Call)

/-- The process is still there, and its counters are the numbers of calls. -/
def Counted : Prop :=
  ∃ history, historyAfter sha1 HOME calls = some history ∧
    ∀ m, history m = (calls.map message).count m

/-- A file is written for a message only by the first call. -/
def WrittenOnce : Prop :=
  ∀ before c after, calls = before ++ c :: after → message c ∈ before.map message →
    written sha1 HOME before c = []

/-- Different messages have different files, each with its own message. -/
def OwnFiles : Prop :=
  ∀ before c after, calls = before ++ c :: after → ∀ before' d after',
    calls = before' ++ d :: after' →
    c.level = d.level → c.serviceName = d.serviceName → message c ≠ message d →
      ∀ f ∈ written sha1 HOME before c, ∀ g ∈ written sha1 HOME before' d,
        f.1 ≠ g.1 ∧ f.2 = message c ++ "\n".toList ∧ g.2 = message d ++ "\n".toList

/-- **Every message is counted, and written once to a file of its own.** -/
structure Notified : Prop where
  counted : Counted sha1 HOME calls
  once : WrittenOnce sha1 HOME calls
  own : OwnFiles sha1 HOME calls

/-- The calls that come back: those before the first one that is `FATAL`. -/
def returning (calls : List Call) : List Call := calls.takeWhile fun c => c.level != .FATAL

/-- The hash has no collisions on what is hashed. -/
def NoCollisions : Prop :=
  ∀ c ∈ calls, ∀ d ∈ calls, sha1 (hashed (message c)) = sha1 (hashed (message d)) →
    hashed (message c) = hashed (message d)

/-- Different messages of one level and service differ in the bytes that are hashed. -/
def HashedApart : Prop :=
  ∀ c ∈ calls, ∀ d ∈ calls, c.level = d.level → c.serviceName = d.serviceName →
    message c ≠ message d →
    hashed (message c) ≠ hashed (message d)

end Notification

/-! ### Names -/

theorem hexDigit_inj {m n : ℕ} (hm : m < 16) (hn : n < 16) (h : hexDigit m = hexDigit n) :
    m = n := by
  have hall : ∀ i : Fin 16, ∀ j : Fin 16, hexDigit i = hexDigit j → i = j := by decide
  exact congrArg Fin.val (hall ⟨m, hm⟩ ⟨n, hn⟩ h)

theorem toHex_injective : Function.Injective toHex := by
  intro bs
  induction bs with
  | nil =>
    rintro (_ | ⟨b, cs⟩) h
    · rfl
    · cases h
  | cons b bs ih =>
    rintro (_ | ⟨c, cs⟩) h
    · cases h
    · obtain ⟨hhigh, h⟩ := List.cons.inj h
      obtain ⟨hlow, h⟩ := List.cons.inj h
      have hb := b.toNat_lt
      have hc := c.toNat_lt
      have hhigh := hexDigit_inj (by omega) (by omega) hhigh
      have hlow := hexDigit_inj (by omega) (by omega) hlow
      have hbc : b = c := UInt8.toNat_inj.mp (by omega)
      rw [hbc, ih h]

/-! ### Runs -/

section Runs

variable (sha1 : List UInt8 → List UInt8) (HOME : Text) (calls : List Call)

/-- **A counter that is 0 stays 0.** -/
theorem notification_zero (c : Call) : (notification sha1 HOME (fun _ => 0) c).map Prod.fst =
    if c.level = .FATAL then none else some fun _ => 0 := by
  unfold notification
  dsimp only
  split_ifs with hfatal hpos
  · rfl
  · exact absurd hpos (Int.lt_irrefl 0)
  · rfl

/-- **No call is ever counted.** -/
theorem history_run : historyAfter sha1 HOME calls =
    if ∀ c ∈ calls, c.level ≠ .FATAL then some fun _ => 0 else none := by
  induction calls using List.reverseRecOn with
  | nil => rfl
  | append_singleton calls c ih =>
    unfold historyAfter at ih ⊢
    rw [run_concat, ih]
    by_cases hcalls : ∀ d ∈ calls, d.level ≠ .FATAL
    · rw [if_pos hcalls, Option.bind_some, notification_zero]
      by_cases hc : c.level = .FATAL
      · rw [if_pos hc, if_neg fun h => h c (by simp) hc]
      · rw [if_neg hc, if_pos]
        intro d hd
        rcases List.mem_append.mp hd with hd | hd
        · exact hcalls d hd
        · rwa [List.mem_singleton.mp hd]
    · rw [if_neg hcalls, if_neg fun h => hcalls fun d hd => h d (List.mem_append_left _ hd)]
      rfl

/-- **Every call that comes back writes**, and no other one. -/
theorem written_eq (before : List Call) (c : Call) : written sha1 HOME before c =
    if ∀ d ∈ before ++ [c], d.level ≠ .FATAL then
      [(notificationFile sha1 HOME (message c) c.serviceName c.level, message c ++ "\n".toList)]
    else [] := by
  unfold written
  rw [history_run]
  simp only [List.forall_mem_append, List.forall_mem_singleton]
  by_cases hbefore : ∀ d ∈ before, d.level ≠ .FATAL
  · rw [if_pos hbefore, Option.bind_some]
    unfold notification
    dsimp only
    by_cases hc : c.level = .FATAL
    · rw [if_pos hc, if_neg fun h => h.2 hc]
      rfl
    · rw [if_neg hc, if_neg (Int.lt_irrefl 0), if_pos ⟨hbefore, hc⟩]
      rfl
  · rw [if_neg hbefore, if_neg fun h => hbefore h.1]
    rfl

variable {sha1 HOME calls}

/-- The beginnings of the calls that come back. -/
theorem prefix_returning {pre : List Call} (hpre : pre <+: calls) :
    pre <+: returning calls ↔ ∀ d ∈ pre, d.level ≠ .FATAL := by
  obtain ⟨post, rfl⟩ := hpre
  induction pre with
  | nil => simp
  | cons c pre ih =>
    unfold returning at ih ⊢
    rw [List.cons_append, List.takeWhile_cons]
    by_cases hc : c.level = .FATAL
    · rw [hc]
      simp [hc]
    · rw [if_pos (by simpa using hc), List.cons_prefix_cons, List.forall_mem_cons]
      exact and_congr (iff_of_true rfl hc) ih

theorem returning_isPrefix (calls : List Call) : returning calls <+: calls :=
  List.takeWhile_prefix _

theorem written_of_returning {before after : List Call} {c : Call}
    (h : returning calls = before ++ c :: after) :
    written sha1 HOME before c =
      [(notificationFile sha1 HOME (message c) c.serviceName c.level,
        message c ++ "\n".toList)] := by
  have hpre : before ++ [c] <+: returning calls :=
    ⟨after, by rw [h, List.append_assoc, List.singleton_append]⟩
  rw [written_eq, if_pos ((prefix_returning (hpre.trans (returning_isPrefix calls))).mp hpre)]

/-- A call that writes comes back. -/
theorem returning_of_written {before after : List Call} {c : Call}
    (h : calls = before ++ c :: after) (hw : written sha1 HOME before c ≠ []) :
    ∃ after', returning calls = before ++ c :: after' := by
  have hpre : before ++ [c] <+: calls :=
    ⟨after, by rw [h, List.append_assoc, List.singleton_append]⟩
  have hlevels : ∀ d ∈ before ++ [c], d.level ≠ .FATAL := by
    by_contra hfatal
    rw [written_eq, if_neg hfatal] at hw
    exact hw rfl
  obtain ⟨after', hafter⟩ := (prefix_returning hpre).mpr hlevels
  exact ⟨after', by rw [← hafter, List.append_assoc, List.singleton_append]⟩

theorem counted_iff : Counted sha1 HOME calls ↔ calls = [] := by
  unfold Counted
  rw [history_run]
  constructor
  · rintro ⟨history, hsome, h⟩
    split_ifs at hsome
    obtain rfl := Option.some.inj hsome
    rcases calls with _ | ⟨c, calls⟩
    · rfl
    · have hcount : (0 : ℤ) = (((c :: calls).map message).count (message c) : ℕ) := h (message c)
      rw [List.map_cons, List.count_cons_self] at hcount
      omega
  · rintro rfl
    exact ⟨_, if_pos nofun, fun m => rfl⟩

/-- Each message is new, call by call. -/
theorem nodup_iff : ∀ {l : List Call}, (l.map message).Nodup ↔
    EachEntry (fun before c => message c ∉ before.map message) l := by
  intro l
  induction l using List.reverseRecOn with
  | nil => exact iff_of_true List.nodup_nil eachEntry_nil
  | append_singleton l c ih =>
    rw [eachEntry_concat, ← ih, List.map_append, List.map_singleton, List.nodup_append]
    constructor
    · rintro ⟨hl, -, hne⟩
      exact ⟨hl, fun hmem => hne _ hmem _ (List.mem_singleton_self _) rfl⟩
    · rintro ⟨hl, hc⟩
      refine ⟨hl, List.pairwise_singleton _ _, fun m hm n hn heq => hc ?_⟩
      rwa [← List.mem_singleton.mp hn, ← heq]

theorem writtenOnce_iff : WrittenOnce sha1 HOME calls ↔ ((returning calls).map message).Nodup := by
  rw [nodup_iff]
  constructor
  · intro h before c after heq hmem
    obtain ⟨post, hpost⟩ := returning_isPrefix calls
    have hcalls : calls = before ++ c :: (after ++ post) := by
      rw [← hpost, heq, List.append_assoc, List.cons_append]
    have hw := h before c _ hcalls hmem
    rw [written_of_returning heq] at hw
    cases hw
  · intro h before c after hcalls hmem
    by_contra hw
    obtain ⟨after', heq⟩ := returning_of_written hcalls hw
    exact h before c after' heq hmem

/-- Files of one service and level have the same name exactly if the same is hashed. -/
theorem notificationFile_eq_iff {m n serviceName : Text} {level : NotificationLevels} :
    notificationFile sha1 HOME m serviceName level = notificationFile sha1 HOME n
      serviceName level ↔
      sha1 (hashed m) = sha1 (hashed n) := by
  simp only [notificationFile, notificationFileName, List.append_cancel_left_eq,
    List.append_cancel_right_eq]
  exact toHex_injective.eq_iff

theorem ownFiles_iff (hsha1 : NoCollisions sha1 (returning calls)) :
    OwnFiles sha1 HOME calls ↔ HashedApart (returning calls) := by
  constructor
  · intro h c hc d hd hlevel hservice hne heq
    obtain ⟨post, hpost⟩ := returning_isPrefix calls
    obtain ⟨before, after, hcalls⟩ := List.append_of_mem hc
    obtain ⟨before', after', hcalls'⟩ := List.append_of_mem hd
    have hsplit : ∀ {pre suf : List Call} {e : Call}, returning calls = pre ++ e :: suf →
        calls = pre ++ e :: (suf ++ post) := by
      intro pre suf e he
      rw [← hpost, he, List.append_assoc, List.cons_append]
    have hfiles := h before c _ (hsplit hcalls) before' d _ (hsplit hcalls') hlevel hservice hne _
      (written_of_returning hcalls ▸ List.mem_cons_self) _
      (written_of_returning hcalls' ▸ List.mem_cons_self)
    refine hfiles.1 ?_
    rw [hlevel, hservice]
    exact notificationFile_eq_iff.mpr (congrArg sha1 heq)
  · intro h before c after hcalls before' d after' hcalls' hlevel hservice hne f hf g hg
    obtain ⟨post, hpost⟩ := returning_of_written hcalls (List.ne_nil_of_mem hf)
    obtain ⟨post', hpost'⟩ := returning_of_written hcalls' (List.ne_nil_of_mem hg)
    have hc : c ∈ returning calls := hpost ▸ List.mem_append_right _ List.mem_cons_self
    have hd : d ∈ returning calls := hpost' ▸ List.mem_append_right _ List.mem_cons_self
    rw [written_of_returning hpost, List.mem_singleton] at hf
    rw [written_of_returning hpost', List.mem_singleton] at hg
    subst hf hg
    refine ⟨fun heq => h c hc d hd hlevel hservice hne (hsha1 c hc d hd ?_), rfl, rfl⟩
    rw [hlevel, hservice] at heq
    exact notificationFile_eq_iff.mp heq

/-- **The counters count nothing**, so that only the empty sequence meets all of what was meant;
every message that comes back is written as often as it comes, to a file of its own if the bytes
that are hashed are its own. -/
theorem notified_iff (hsha1 : NoCollisions sha1 (returning calls)) :
    (Notified sha1 HOME calls ↔ calls = []) ∧ (Counted sha1 HOME calls ↔ calls = []) ∧
      (WrittenOnce sha1 HOME calls ↔ ((returning calls).map message).Nodup) ∧
      (OwnFiles sha1 HOME calls ↔ HashedApart (returning calls)) := by
  refine ⟨⟨fun h => counted_iff.mp h.counted, ?_⟩, counted_iff, writtenOnce_iff, ownFiles_iff hsha1⟩
  rintro rfl
  refine ⟨counted_iff.mpr rfl, writtenOnce_iff.mpr List.nodup_nil, (ownFiles_iff hsha1).mpr ?_⟩
  exact fun c hc => absurd hc List.not_mem_nil

end Runs

def noon : DateTime := ⟨1, 12, 0, 0⟩

/-- A message, the same again, and one that ends the process. -/
def started : List Call :=
  [⟨noon, "started".toList, [], .NOTIFY⟩, ⟨noon, "started".toList, [], .NOTIFY⟩,
    ⟨noon, "over".toList, [], .FATAL⟩]

theorem notified_started :
    (Notified id [] started ↔ started = []) ∧ (Counted id [] started ↔ started = []) ∧
      (WrittenOnce id [] started ↔ ((returning started).map message).Nodup) ∧
      (OwnFiles id [] started ↔ HashedApart (returning started)) :=
  have hid : NoCollisions id (returning started) := by
    intro c _ d _ h
    rwa [id_eq, id_eq] at h
  notified_iff hid

/-- One call is not counted. -/
theorem not_notified_started : ¬ Notified id [] [⟨noon, "started".toList, [], .NOTIFY⟩] := fun h =>
  absurd (counted_iff.mp h.counted) (List.cons_ne_nil _ _)

end ServeD.Notifications.Counters
