import ServeD.Lib.Runs
import ServeD.Managers.AccountUtils

/-! # The accounts that are alive

`awareOfUserManagers` of `SvdAccountsManager`: the list of the accounts whose managers are alive is
the argument of the behaviour, and the actor becomes the behaviour with the next list. `Admin.Alive`
puts the account in front, `Admin.Dead` removes all accounts with its uuid.

An account that says `Alive` again without `Dead` in between is in the list twice; the list is exact
in all states that are reached exactly when no account does (`alwaysExact_iff`). -/

namespace ServeD.Managers.Accounts

open ServeD.Lib.Runs ServeD.Api.Records ServeD.Managers.AccountUtils

/-- The messages. `other` is what is only logged: `SvdFileEvent`, `ApiSuccess`, `Notify.Message`,
`Terminated` and everything unknown. -/
inductive Msg where
  | getPort (draws : List Draw)
  | alive (account : SvdAccount)
  | dead (account : SvdAccount)
  | other
  deriving DecidableEq

inductive Reply where
  | port (number : ℤ)
  | apiSuccess
  deriving DecidableEq, Repr

/-- `awareOfUserManagers(accountsAlive)`: the next list and the reply to the sender. -/
def awareOfUserManagers (accountsAlive : List SvdAccount) : Msg → List SvdAccount × Option Reply
  | .getPort draws => (accountsAlive, (randomFreePort draws).map .port)
  | .alive account => (account :: accountsAlive, none)
  | .dead account => (accountsAlive.filter fun a => !(a.uuid == account.uuid), some .apiSuccess)
  | .other => (accountsAlive, none)

/-- One message. -/
def step (accountsAlive : List SvdAccount) (msg : Msg) : List SvdAccount :=
  (awareOfUserManagers accountsAlive msg).1

/-- The list after the messages; `receive` begins with `Nil`. -/
def after (msgs : List Msg) : List SvdAccount := run step [] msgs

/-- The account of the last message about a uuid, if this message was `Alive`. -/
def lastAlive (u : UUID) : List Msg → Option SvdAccount :=
  List.foldl (fun last msg =>
    match msg with
    | .alive account => if account.uuid = u then some account else last
    | .dead account => if account.uuid = u then none else last
    | _ => last) none

/-- The entries for a uuid. -/
def entries (u : UUID) (accounts : List SvdAccount) : List SvdAccount :=
  accounts.filter fun a => a.uuid = u

/-- The list has one entry for each uuid that is alive, the account of its last `Alive`,
and no other. -/
def Exact (msgs : List Msg) : Prop := ∀ u, entries u (after msgs) = (lastAlive u msgs).toList

/-- An account says `Alive` only if it is not alive already. -/
def Announced (before : List Msg) (msg : Msg) : Prop :=
  ∀ account, msg = .alive account → lastAlive account.uuid before = none

/-! ### One message -/

theorem after_concat (msgs : List Msg) (msg : Msg) :
    after (msgs ++ [msg]) = step (after msgs) msg :=
  run_concat _ _ _

section Entries

variable {u : UUID} {account : SvdAccount} {l : List SvdAccount} {msgs : List Msg}

theorem lastAlive_alive : lastAlive u (msgs ++ [.alive account]) =
    if account.uuid = u then some account else lastAlive u msgs := by
  simp [lastAlive]

theorem lastAlive_dead : lastAlive u (msgs ++ [.dead account]) =
    if account.uuid = u then none else lastAlive u msgs := by
  simp [lastAlive]

theorem lastAlive_getPort {draws : List Draw} :
    lastAlive u (msgs ++ [.getPort draws]) = lastAlive u msgs := by
  simp [lastAlive]

theorem lastAlive_other : lastAlive u (msgs ++ [.other]) = lastAlive u msgs := by
  simp [lastAlive]

theorem entries_alive : entries u (step l (.alive account)) =
    if account.uuid = u then account :: entries u l else entries u l := by
  simp [entries, step, awareOfUserManagers, List.filter_cons]

theorem entries_dead : entries u (step l (.dead account)) =
    if account.uuid = u then [] else entries u l := by
  simp only [entries, step, awareOfUserManagers, List.filter_filter]
  split_ifs with h
  · refine List.filter_eq_nil_iff.mpr fun a _ => ?_
    simp [h]
  · refine List.filter_congr fun a _ => ?_
    by_cases ha : a.uuid = u
    · have hne : u ≠ account.uuid := fun he => h he.symm
      simp [ha, hne]
    · simp [ha]

end Entries

/-- **A message keeps the list exact exactly when it does not announce an account that
is alive.** -/
theorem exact_concat {msgs : List Msg} (h : Exact msgs) (msg : Msg) :
    Exact (msgs ++ [msg]) ↔ Announced msgs msg := by
  unfold Exact Announced
  simp only [after_concat]
  cases msg with
  | getPort draws =>
    refine iff_of_true (fun u => ?_) (fun a ha => by cases ha)
    rw [lastAlive_getPort]
    exact h u
  | other =>
    refine iff_of_true (fun u => ?_) (fun a ha => by cases ha)
    rw [lastAlive_other]
    exact h u
  | dead account =>
    refine iff_of_true (fun u => ?_) (fun a ha => by cases ha)
    rw [entries_dead, lastAlive_dead]
    split_ifs
    · rfl
    · exact h u
  | alive account =>
    simp only [entries_alive, lastAlive_alive]
    constructor
    · rintro hu _ ⟨⟩
      have he := hu account.uuid
      rw [if_pos rfl, if_pos rfl, h account.uuid] at he
      simpa using he
    · intro hn u
      split_ifs with hu
      · subst hu
        rw [h account.uuid, hn account rfl]
        rfl
      · exact h u

/-! ### Runs -/

/-- **The list is exact in all states that are reached exactly when every account that is announced
was not alive**: its last message, if there was one, is `Dead`. -/
theorem alwaysExact_iff (msgs : List Msg) :
    (∀ pre, pre <+: msgs → Exact pre) ↔ EachEntry Announced msgs := by
  induction msgs using List.reverseRecOn with
  | nil =>
    refine iff_of_true (fun pre hp => ?_) eachEntry_nil
    rw [List.prefix_nil.mp hp]
    exact fun u => rfl
  | append_singleton msgs msg ih =>
    rw [eachEntry_concat, ← ih]
    constructor
    · intro h
      have hpre : ∀ pre, pre <+: msgs → Exact pre :=
        fun pre hp => h pre (hp.trans (List.prefix_append _ _))
      exact ⟨hpre, (exact_concat (hpre msgs List.prefix_rfl) msg).mp (h _ List.prefix_rfl)⟩
    · rintro ⟨h, hmsg⟩ pre hp
      rcases List.prefix_concat_iff.mp hp with rfl | hp
      · exact (exact_concat (h msgs List.prefix_rfl) msg).mpr hmsg
      · exact h pre hp

/-- An account whose manager is started again. -/
def guest : SvdAccount := ⟨"guest", "", 501, 10001, "", "", ⟨0, 1⟩, 0⟩

/-- It is in the list twice. -/
theorem not_exact_aliveTwice : ¬ Exact [.alive guest, .alive guest] := by
  intro h
  have h2 := h guest.uuid
  revert h2
  decide

end ServeD.Managers.Accounts
