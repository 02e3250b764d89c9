import ServeD.Api.Keys
import ServeD.Db.Invariant

/-! # Authorised keys

The handlers of `AuthorizeWithKey`, `ListKeys`, `AddKey` and `RemoveKey` of `SvdAccountManager`, and
of `AddAuthorizedKey` and `RemoveAuthorizedKey` of `SvdGitManager`. Both keep their keys in a set of
`AccessKey`s inside a stored record, so both amount to the same run of `+` and `-` on a set
(`keys_after`, `authorizedKeys_after`, with `keysAfter`).

`AccessKey.equals` identifies all keys: the set never holds more than one (`keysAfter_cases`), a key
added beside another is ignored and removing any key removes the one that is there. The manager
behaves as a set of public keys exactly as long as no key is added or removed while another one is
authorised (`keysLaw_iff`). -/

namespace ServeD.Managers.Keys

open ServeD.Lib.ObjectStore ServeD.Lib.Runs ServeD.Lib.ImmutableSets ServeD.Api.Records
open ServeD.Api.Keys ServeD.Db.Client ServeD.Db.Invariant
open ServeD.Lib.ImmutableSets.ImmutableSet (empty set1)

variable {K : Type} [DecidableEq K]

/-- A key is added to a set of keys, or removed from it. -/
inductive KeyOp (K : Type) where
  | add (key : AccessKey K)
  | remove (key : AccessKey K)
  deriving DecidableEq, Repr

namespace KeyOp

omit [DecidableEq K] in
def key : KeyOp K → AccessKey K
  | .add key => key
  | .remove key => key

omit [DecidableEq K] in
def isAdd : KeyOp K → Bool
  | .add _ => true
  | .remove _ => false

/-- `keys + key`, `keys - key`. -/
def apply [HashCode K] (keys : ImmutableSet (AccessKey K)) :
    KeyOp K → ImmutableSet (AccessKey K)
  | .add key => keys.insert key
  | .remove key => keys.remove key

end KeyOp

/-- `keys.find(_.key == k).isDefined`. -/
def holdsKey (keys : ImmutableSet (AccessKey K)) (k : K) : Bool :=
  (keys.find fun a => a.key == k).isSome

/-! ### The account manager -/

inductive AccountMsg (K : Type) where
  | authorizeWithKey (key : K)
  | listKeys
  | addKey (key : AccessKey K)
  | removeKey (key : AccessKey K)
  deriving DecidableEq, Repr

inductive AccountReply (K : Type) where
  | authorized (answer : Bool)
  | keys (keys : ImmutableSet (AccessKey K))
  deriving DecidableEq

omit [DecidableEq K] in
/-- `accountKeys(db)`: the first record, or a new one. -/
def accountKeys (db : DBClient (AccountKeys K)) (new : Fresh) : AccountKeys K :=
  match (classQueryCollection db.currentODB).head? with
  | some ak => ak.value
  | none => ⟨empty, new.uuid, new.now⟩

/-- `SvdAccountManager.started`, the messages about keys: the database and the replies. -/
def accountReceive [HashCode K] (db : DBClient (AccountKeys K)) (new : Fresh) :
    AccountMsg K → DBClient (AccountKeys K) × List (AccountReply K)
  | .authorizeWithKey key => (db, [.authorized (holdsKey (accountKeys db new).keys key)])
  | .listKeys => (db, [.keys (accountKeys db new).keys])
  | .addKey key =>
    let ak := accountKeys db new
    (db.saveNew { ak with keys := ak.keys.insert key, createdAt := new.now }, [])
  | .removeKey key =>
    let ak := accountKeys db new
    (db.saveNew { ak with keys := ak.keys.remove key, createdAt := new.now }, [])

/-- The account database after a sequence of messages, from an empty one. -/
def afterAccount [HashCode K] (msgs : List (AccountMsg K × Fresh)) : DBClient (AccountKeys K) :=
  run (fun db m => (accountReceive db m.2 m.1).1) DBClient.init msgs

/-! ### The git manager -/

inductive GitMsg (K : Type) where
  | addAuthorizedKey (uuid : UUID) (key : AccessKey K)
  | removeAuthorizedKey (uuid : UUID) (key : AccessKey K)
  deriving DecidableEq, Repr

inductive GitReply where
  | apiSuccess
  | repositoryDoesNotExistError
  deriving DecidableEq, Repr

omit [DecidableEq K] in
def withRepo (db : DBClient (Repository K)) (u : UUID)
    (f : Repository K → DBClient (Repository K)) : DBClient (Repository K) × GitReply :=
  match db.find u with
  | some repo => (f repo.value, .apiSuccess)
  | none => (db, .repositoryDoesNotExistError)

/-- `SvdGitManager.receive`, the messages about keys: the reply of `withRepo` comes first. -/
def gitReceive [HashCode K] (db : DBClient (Repository K)) (now : ℤ) :
    GitMsg K → DBClient (Repository K) × List GitReply
  | .addAuthorizedKey u key =>
    let r := withRepo db u fun repo => db.saveNew
      { repo with authorizedKeys := repo.authorizedKeys.insert key, createdAt := now }
    (r.1, [r.2, .apiSuccess])
  | .removeAuthorizedKey u key =>
    let r := withRepo db u fun repo => db.saveNew
      { repo with authorizedKeys := repo.authorizedKeys.remove key, createdAt := now }
    (r.1, [r.2, .apiSuccess])

/-- The repository database after a sequence of messages. -/
def afterGit [HashCode K] (db : DBClient (Repository K)) (msgs : List (GitMsg K × ℤ)) :
    DBClient (Repository K) :=
  run (fun db m => (gitReceive db m.2 m.1).1) db msgs

omit [DecidableEq K] in
/-- `authorizedKeys` of the repository `u`. -/
def authorizedKeys (db : DBClient (Repository K)) (u : UUID) : ImmutableSet (AccessKey K) :=
  ((db.find u).map fun o => o.value.authorizedKeys).getD empty

/-! ### A set of public keys -/

/-- The last operation that carries `k` is an addition. -/
def authorised (ops : List (KeyOp K)) (k : K) : Bool :=
  (ops.filter fun o => o.key.key == k).getLast?.any KeyOp.isAdd

/-- Whenever a key is added or removed, no other key is authorised. -/
def OneKeyAtATime (ops : List (KeyOp K)) : Prop :=
  ∀ pre o, pre ++ [o] <+: ops → ∀ k, k ≠ o.key.key → authorised pre k = false

/-- The keys after a sequence of operations on the empty set. -/
def keysAfter [HashCode K] (ops : List (KeyOp K)) : ImmutableSet (AccessKey K) :=
  run KeyOp.apply empty ops

theorem authorised_concat_same (ops : List (KeyOp K)) (o : KeyOp K) :
    authorised (ops ++ [o]) o.key.key = o.isAdd := by
  simp [authorised, List.filter_append]

theorem authorised_concat_other {o : KeyOp K} {k : K} (h : o.key.key ≠ k) (ops : List (KeyOp K)) :
    authorised (ops ++ [o]) k = authorised ops k := by
  simp [authorised, List.filter_append, h]

@[simp] theorem holdsKey_empty (k : K) : holdsKey empty k = false := rfl

@[simp] theorem holdsKey_set1 (a : AccessKey K) (k : K) :
    holdsKey (set1 a) k = (a.key == k) := by
  show (List.find? _ [a]).isSome = _
  cases h : a.key == k <;> simp [h]

variable [HashCode K]

section OneKey

omit [HashCode K]

theorem authorised_concat_alone {ops : List (KeyOp K)} {o : KeyOp K}
    (h : ∀ k, k ≠ o.key.key → authorised ops k = false) (k : K) :
    authorised (ops ++ [o]) k = (o.isAdd && o.key.key == k) := by
  by_cases hk : o.key.key = k
  · subst hk
    rw [authorised_concat_same]
    simp
  · rw [authorised_concat_other hk, h k (Ne.symm hk)]
    simp [hk]

theorem OneKeyAtATime.of_prefix {ops ops' : List (KeyOp K)} (h : OneKeyAtATime ops')
    (hp : ops <+: ops') : OneKeyAtATime ops :=
  fun pre o hpre => h pre o (hpre.trans hp)

theorem oneKeyAtATime_nil : OneKeyAtATime ([] : List (KeyOp K)) :=
  fun pre o hp => absurd (List.prefix_nil.mp hp) (by simp)

theorem OneKeyAtATime.concat {ops : List (KeyOp K)} {o : KeyOp K} (h : OneKeyAtATime ops)
    (ho : ∀ k, k ≠ o.key.key → authorised ops k = false) : OneKeyAtATime (ops ++ [o]) := by
  intro pre o' hp
  rcases List.prefix_concat_iff.mp hp with heq | hp'
  · obtain ⟨rfl, rfl⟩ := List.append_singleton_inj.mp heq
    exact ho
  · exact h pre o' hp'

end OneKey

/-- What an operation makes of an empty set and of a singleton. -/
theorem apply_empty (o : KeyOp K) :
    KeyOp.apply empty o = if o.isAdd then set1 o.key else empty := by
  cases o with
  | add key => exact ImmutableSet.insert_empty key
  | remove key => exact ImmutableSet.remove_empty key

theorem apply_set1 (a : AccessKey K) (o : KeyOp K) :
    KeyOp.apply (set1 a) o = if o.isAdd then set1 a else empty := by
  cases o with
  | add key => exact ImmutableSet.insert_set1 AccessKey.beq_eq_true a key
  | remove key => exact ImmutableSet.remove_set1 AccessKey.beq_eq_true a key

theorem keysAfter_concat (ops : List (KeyOp K)) (o : KeyOp K) :
    keysAfter (ops ++ [o]) = KeyOp.apply (keysAfter ops) o := run_concat _ _ _

/-- There is never more than one key. -/
theorem keysAfter_cases (ops : List (KeyOp K)) :
    keysAfter ops = empty ∨ ∃ a, keysAfter ops = set1 a := by
  refine run_invariant (P := fun s => s = empty ∨ ∃ a, s = set1 a) ?_ ops _ (Or.inl rfl)
  rintro s o (rfl | ⟨a, rfl⟩)
  · rw [apply_empty]
    split
    · exact Or.inr ⟨_, rfl⟩
    · exact Or.inl rfl
  · rw [apply_set1]
    split
    · exact Or.inr ⟨_, rfl⟩
    · exact Or.inl rfl

/-- An operation on the only key there is, if any. -/
theorem holdsKey_concat {ops : List (KeyOp K)} {o : KeyOp K}
    (h : ∀ a, keysAfter ops = set1 a → a.key = o.key.key) (k : K) :
    holdsKey (keysAfter (ops ++ [o])) k = (o.isAdd && o.key.key == k) := by
  rw [keysAfter_concat]
  rcases keysAfter_cases ops with hs | ⟨a, hs⟩
  · rw [hs, apply_empty]
    cases o.isAdd <;> simp
  · rw [hs, apply_set1]
    cases o.isAdd <;> simp [h a hs]

/-- Without a second key the set answers by the last operation on a key. -/
theorem holdsKey_keysAfter {ops : List (KeyOp K)} (h : OneKeyAtATime ops) (k : K) :
    holdsKey (keysAfter ops) k = authorised ops k := by
  induction ops using List.reverseRecOn generalizing k with
  | nil => rfl
  | append_singleton ops o ih =>
    have hops := ih (h.of_prefix (List.prefix_append _ _))
    have halone := h ops o List.prefix_rfl
    have hk : ∀ a, keysAfter ops = set1 a → a.key = o.key.key := by
      intro a ha
      by_contra hne
      have h1 := hops a.key
      rw [halone a.key hne, ha, holdsKey_set1] at h1
      simp at h1
    rw [holdsKey_concat hk, authorised_concat_alone halone]

/-- An operation beside another key leaves a wrong answer. -/
theorem eq_of_holdsKey_concat {ops : List (KeyOp K)} {o : KeyOp K}
    (h : ∀ k, holdsKey (keysAfter ops) k = authorised ops k)
    (h' : ∀ k, holdsKey (keysAfter (ops ++ [o])) k = authorised (ops ++ [o]) k) {k : K}
    (hk : authorised ops k = true) : k = o.key.key := by
  by_contra hne
  have hko := Ne.symm hne
  rw [← h k] at hk
  rcases keysAfter_cases ops with hs | ⟨a, hs⟩
  · rw [hs] at hk; simp at hk
  · rw [hs, holdsKey_set1, beq_iff_eq] at hk
    subst hk
    -- a key added is not there, a key that was there is gone
    have h1 := h' o.key.key
    have h2 := h' a.key
    rw [authorised_concat_same] at h1
    rw [authorised_concat_other hko, ← h a.key, hs] at h2
    rw [keysAfter_concat, hs, apply_set1] at h1 h2
    rcases ho : o.isAdd with _ | _
    · rw [ho] at h2; simp at h2
    · rw [ho] at h1; simp [hne] at h1

/-! ### The law -/

variable {ε : Type}

/-- Records that behave as a set of public keys after the events `evs`: `op` is the operation that
an event carries, `keys` the set stored. -/
structure SetLaw (op : ε → Option (KeyOp K)) (keys : List ε → ImmutableSet (AccessKey K))
    (evs : List ε) : Prop where
  /-- a key is authorised iff the last operation that carries it is an addition -/
  answers : ∀ k, holdsKey (keys evs) k = authorised (evs.filterMap op) k
  /-- the last event changes nothing for the keys it does not carry -/
  isolated : ∀ pre e k, pre ++ [e] = evs → (∀ o, op e = some o → o.key.key ≠ k) →
    holdsKey (keys evs) k = holdsKey (keys pre) k
  /-- an entry that the set compares with the one in hand is equal to it iff it has the same key,
  and has then the same hash code -/
  entries : ∀ pre e o, pre ++ [e] = evs → op e = some o → ∀ a ∈ (keys pre).elems,
    ((o.key == a) = true ↔ o.key.key = a.key) ∧
      ((o.key == a) = true → HashCode.hashCode o.key = HashCode.hashCode a)
  /-- the new set is equal to the old one, so that `<<` does nothing, iff it has the same keys -/
  updates : ∀ pre e o, pre ++ [e] = evs → op e = some o →
    ((keys pre == KeyOp.apply (keys pre) o) = true ↔
      ∀ k, holdsKey (keys pre) k = holdsKey (KeyOp.apply (keys pre) o) k)

section SetLaw

variable {op : ε → Option (KeyOp K)} {keys : List ε → ImmutableSet (AccessKey K)}

omit [DecidableEq K] [HashCode K] in
theorem filterMap_concat (op : ε → Option (KeyOp K)) (evs : List ε) (e : ε) :
    (evs ++ [e]).filterMap op = evs.filterMap op ++ (op e).toList := by
  cases h : op e <;> simp [h]

omit [DecidableEq K] [HashCode K] in
/-- A prefix of the operations is what a prefix of the events carries. -/
theorem exists_prefix_of_filterMap {evs : List ε} {pre : List (KeyOp K)} {o : KeyOp K}
    (h : pre ++ [o] <+: evs.filterMap op) :
    ∃ evs' e, evs' ++ [e] <+: evs ∧ evs'.filterMap op = pre ∧ op e = some o := by
  obtain ⟨post, hpost⟩ := h
  rw [List.append_assoc] at hpost
  obtain ⟨l1, l2, rfl, h1, h2⟩ := List.filterMap_eq_append_iff.mp hpost.symm
  obtain ⟨m1, e, m2, rfl, hnone, he, -⟩ := List.filterMap_eq_cons_iff.mp h2
  refine ⟨l1 ++ m1, e, ⟨m2, by simp⟩, ?_, he⟩
  rw [List.filterMap_append, h1, List.filterMap_eq_nil_iff.mpr hnone, List.append_nil]

theorem updates_iff (ops : List (KeyOp K)) (o : KeyOp K) :
    (keysAfter ops == KeyOp.apply (keysAfter ops) o) = true ↔
      ∀ k, holdsKey (keysAfter ops) k = holdsKey (KeyOp.apply (keysAfter ops) o) k := by
  rcases keysAfter_cases ops with hs | ⟨a, hs⟩
  · rw [hs, apply_empty]
    rcases o.isAdd with _ | _
    · simp
    · have hne : (empty == set1 o.key) = false := ImmutableSet.beq_of_size_ne Nat.zero_ne_one
      simp only [if_true, hne, Bool.false_eq_true, false_iff]
      intro h
      have h1 := h o.key.key
      simp at h1
  · rw [hs, apply_set1]
    rcases o.isAdd with _ | _
    · have hne : (set1 a == empty) = false := ImmutableSet.beq_of_size_ne Nat.one_ne_zero
      simp only [Bool.false_eq_true, if_false, hne, false_iff]
      intro h
      have h1 := h a.key
      simp at h1
    · simp

/-- **The law of a set of public keys** holds all along a run of events exactly when no key is added
or removed beside another. -/
theorem setLaw_iff (hkeys : ∀ evs, keys evs = keysAfter (evs.filterMap op)) (evs : List ε) :
    (∀ pre, pre <+: evs → SetLaw op keys pre) ↔ OneKeyAtATime (evs.filterMap op) := by
  constructor
  · intro h pre o hp k hk
    obtain ⟨evs', e, hpe, rfl, he⟩ := exists_prefix_of_filterMap hp
    have h1 := (h evs' ((List.prefix_append _ _).trans hpe)).answers
    have h2 := (h (evs' ++ [e]) hpe).answers
    simp only [hkeys, List.filterMap_append, List.filterMap_cons, he] at h1 h2
    by_contra hne
    exact hk (eq_of_holdsKey_concat h1 h2 (by simpa using hne))
  · intro h pre hpre
    have hops := h.of_prefix (hpre.filterMap op)
    -- the key that is there, if any, is the one of the event's operation
    have hone : ∀ pre' e o, pre' ++ [e] = pre → op e = some o →
        ∀ a : AccessKey K, keysAfter (pre'.filterMap op) = set1 a → a.key = o.key.key := by
      rintro pre' e o rfl he a ha
      by_contra hne
      rw [List.filterMap_append, List.filterMap_cons, he] at hops
      have h1 := hops _ o List.prefix_rfl a.key hne
      rw [← holdsKey_keysAfter (hops.of_prefix (List.prefix_append _ _)), ha] at h1
      simp at h1
    refine ⟨fun k => ?_, ?_, ?_, ?_⟩
    · rw [hkeys]; exact holdsKey_keysAfter hops k
    · rintro pre' e k rfl hk
      rw [hkeys, hkeys, holdsKey_keysAfter hops,
        holdsKey_keysAfter (hops.of_prefix ((List.prefix_append _ _).filterMap op)),
        List.filterMap_append]
      rcases he : op e with _ | o
      · simp [he]
      · rw [List.filterMap_cons, he]
        exact authorised_concat_other (hk o he) _
    · intro pre' e o hpe he a ha
      rw [hkeys] at ha
      rcases keysAfter_cases (pre'.filterMap op) with hs | ⟨b, hs⟩
      · rw [hs] at ha; exact absurd ha List.not_mem_nil
      · rw [hs] at ha
        obtain rfl := List.mem_singleton.mp ha
        have hab := (hone pre' e o hpe he a hs).symm
        exact ⟨by simp [hab], fun _ => congrArg (HashCode.hashCode (α := K)) hab⟩
    · intro pre' e o _ _
      rw [hkeys]
      exact updates_iff _ o

end SetLaw

/-- A set that `<<` takes for the old one is the old one. -/
theorem apply_eq_of_beq {ops : List (KeyOp K)} {o : KeyOp K}
    (h : (keysAfter ops == KeyOp.apply (keysAfter ops) o) = true) :
    KeyOp.apply (keysAfter ops) o = keysAfter ops := by
  have hsize := (ImmutableSet.beq_iff.mp h).1
  rcases keysAfter_cases ops with hs | ⟨a, hs⟩
  · rw [hs, apply_empty] at hsize ⊢
    rcases ho : o.isAdd with _ | _
    · rfl
    · rw [ho] at hsize; exact absurd hsize Nat.zero_ne_one
  · rw [hs, apply_set1] at hsize ⊢
    rcases ho : o.isAdd with _ | _
    · rw [ho] at hsize; exact absurd hsize Nat.one_ne_zero
    · rfl

/-! ### The keys of an account -/

section Account

omit [DecidableEq K] [HashCode K] in
/-- The operation that a message asks for. -/
def accountOp (m : AccountMsg K × Fresh) : Option (KeyOp K) :=
  match m.1 with
  | .addKey key => some (.add key)
  | .removeKey key => some (.remove key)
  | _ => none

/-- No record and no operation so far, or one record with the keys after the operations. -/
def AccountInv (db : DBClient (AccountKeys K)) (ops : List (KeyOp K)) : Prop :=
  WF db ∧ (db.currentODB.objects = [] ∧ ops = [] ∨
    ∃ o, db.currentODB.objects = [o] ∧ o.value.keys = keysAfter ops)

variable {db : DBClient (AccountKeys K)} {ops : List (KeyOp K)}

theorem AccountInv.keys (h : AccountInv db ops) (new : Fresh) :
    (accountKeys db new).keys = keysAfter ops := by
  unfold accountKeys classQueryCollection
  rcases h.2 with ⟨h1, rfl⟩ | ⟨o, h1, h2⟩
  · rw [h1]; rfl
  · rw [h1]; exact h2

/-- An operation on the keys, saved. -/
theorem AccountInv.save (h : AccountInv db ops) (o : KeyOp K) (new : Fresh) :
    AccountInv (db.saveNew { accountKeys db new with
      keys := KeyOp.apply (accountKeys db new).keys o, createdAt := new.now }) (ops ++ [o]) := by
  refine ⟨wf_saveNew h.1 _, Or.inr ?_⟩
  rw [h.keys, ← keysAfter_concat]
  set v : AccountKeys K :=
    { accountKeys db new with keys := keysAfter (ops ++ [o]), createdAt := new.now } with hv
  rcases h.2 with ⟨h1, h2⟩ | ⟨old, h1, h2⟩
  · have hf : db.find (Persistent.uuid v) = none := by
      rw [find_eq_none, findByUUIDCollection, Odb.getObjects, h1]; rfl
    exact ⟨⟨db.heap.length, v⟩, by rw [objects_saveNew_none h.1 hf, h1]; rfl, rfl⟩
  · have hu : Persistent.uuid v = Persistent.uuid old.value := by
      rw [hv]; unfold accountKeys classQueryCollection; rw [h1]; rfl
    have hf : db.find (Persistent.uuid v) = some old := by
      have hm : uuidMatch (Persistent.uuid v) old.value = true := uuidMatch_iff.mpr hu.symm
      rw [find_eq_some h.1, findByUUIDCollection, Odb.getObjects, h1]
      simp [hm]
    rcases he : old.value == v with _ | _
    · exact ⟨⟨db.heap.length, v⟩, by rw [objects_saveNew_new h.1 hf he, h1]; simp, rfl⟩
    · rw [saveNew_same hf he]
      refine ⟨old, h1, ?_⟩
      have hb : (keysAfter ops == KeyOp.apply (keysAfter ops) o) = true := by
        rw [AccountKeys.beq_def, Bool.and_eq_true, h2] at he
        rw [← keysAfter_concat]; exact he.1
      rw [h2, keysAfter_concat, apply_eq_of_beq hb]

theorem AccountInv.receive (h : AccountInv db ops) (m : AccountMsg K × Fresh) :
    AccountInv (accountReceive db m.2 m.1).1 (ops ++ (accountOp m).toList) := by
  obtain ⟨m, new⟩ := m
  cases m with
  | authorizeWithKey key => simpa [accountOp, accountReceive] using h
  | listKeys => simpa [accountOp, accountReceive] using h
  | addKey key => exact h.save (.add key) new
  | removeKey key => exact h.save (.remove key) new

/-- **The stored keys are the set after the operations**, and there is at most one record. -/
theorem accountInv_after (msgs : List (AccountMsg K × Fresh)) :
    AccountInv (afterAccount msgs) (msgs.filterMap accountOp) := by
  induction msgs using List.reverseRecOn with
  | nil => exact ⟨wf_init, Or.inl ⟨rfl, rfl⟩⟩
  | append_singleton msgs m ih =>
    have h := ih.receive m
    rw [afterAccount, run_concat, filterMap_concat]
    exact h

end Account

/-! ### The keys of a repository -/

section Git

variable {db : DBClient (Repository K)} {u : UUID} {ops : List (KeyOp K)}

omit [HashCode K] in
/-- The operation on the repository `u` that a message asks for. -/
def gitOp (u : UUID) (m : GitMsg K × ℤ) : Option (KeyOp K) :=
  match m.1 with
  | .addAuthorizedKey v key => if v = u then some (.add key) else none
  | .removeAuthorizedKey v key => if v = u then some (.remove key) else none

/-- The repository is there, with the keys after the operations. -/
def GitInv (db : DBClient (Repository K)) (u : UUID) (ops : List (KeyOp K)) : Prop :=
  WF db ∧ ∃ repo, db.find u = some repo ∧ repo.value.authorizedKeys = keysAfter ops

theorem GitInv.keys (h : GitInv db u ops) : authorizedKeys db u = keysAfter ops := by
  obtain ⟨-, repo, hf, hk⟩ := h
  rw [authorizedKeys, hf]; exact hk

/-- The handler of either message. -/
def update (db : DBClient (Repository K)) (u : UUID) (o : KeyOp K) (now : ℤ) :
    DBClient (Repository K) :=
  (withRepo db u fun repo => db.saveNew { repo with
    authorizedKeys := KeyOp.apply repo.authorizedKeys o, createdAt := now }).1

theorem GitInv.update_same (h : GitInv db u ops) (o : KeyOp K) (now : ℤ) :
    GitInv (update db u o now) u (ops ++ [o]) := by
  obtain ⟨hw, repo, hf, hk⟩ := h
  have hu : Persistent.uuid repo.value = u := (find_mem hf).2
  simp only [update, withRepo, hf]
  set v : Repository K := { repo.value with
    authorizedKeys := KeyOp.apply repo.value.authorizedKeys o, createdAt := now } with hv
  have hvu : Persistent.uuid v = u := hu
  have hvk : v.authorizedKeys = keysAfter (ops ++ [o]) := by
    rw [keysAfter_concat, ← hk]
  refine ⟨wf_saveNew hw v, ?_⟩
  rcases he : repo.value == v with _ | _
  · refine ⟨⟨db.heap.length, v⟩, ?_, hvk⟩
    rw [← hvu]
    refine find_saveNew hw fun o' ho' => ?_
    rw [hvu, hf, Option.some.injEq] at ho'
    rw [← ho']; exact he
  · rw [saveNew_same (by rw [hvu]; exact hf) he]
    refine ⟨repo, hf, ?_⟩
    have hb : (keysAfter ops == KeyOp.apply (keysAfter ops) o) = true := by
      rw [Repository.beq_def, Bool.and_eq_true, Bool.and_eq_true, hk] at he
      rw [keysAfter_concat] at hvk
      rw [← hvk]; exact he.1.2
    rw [hk, keysAfter_concat, apply_eq_of_beq hb]

theorem GitInv.update_other (h : GitInv db u ops) {v : UUID} (hv : v ≠ u) (o : KeyOp K) (now : ℤ) :
    GitInv (update db v o now) u ops := by
  obtain ⟨hw, hf⟩ := h
  rcases hr : db.find v with _ | repo
  · simp only [update, withRepo, hr]; exact ⟨hw, hf⟩
  · simp only [update, withRepo, hr]
    refine ⟨wf_saveNew hw _, ?_⟩
    rw [find_saveNew_frame hw]
    · exact hf
    · exact fun hu => hv ((find_mem hr).2.symm.trans hu)

theorem GitInv.receive (h : GitInv db u ops) (m : GitMsg K × ℤ) :
    GitInv (gitReceive db m.2 m.1).1 u (ops ++ (gitOp u m).toList) := by
  have hstep : ∀ v o, GitInv (update db v o m.2) u
      (ops ++ (if v = u then some o else none).toList) := by
    intro v o
    by_cases hv : v = u
    · rw [if_pos hv, hv]; exact h.update_same o m.2
    · rw [if_neg hv, Option.toList_none, List.append_nil]; exact h.update_other hv o m.2
  obtain ⟨m, now⟩ := m
  cases m with
  | addAuthorizedKey v key => exact hstep v (.add key)
  | removeAuthorizedKey v key => exact hstep v (.remove key)

/-- **The keys of a repository are the set after the operations on it**, whatever is asked of the
others. -/
theorem gitInv_after {repo : Instance (Repository K)} (hw : WF db) (hf : db.find u = some repo)
    (hk : repo.value.authorizedKeys = empty) (msgs : List (GitMsg K × ℤ)) :
    GitInv (afterGit db msgs) u (msgs.filterMap (gitOp u)) := by
  induction msgs using List.reverseRecOn with
  | nil => exact ⟨hw, repo, hf, hk⟩
  | append_singleton msgs m ih =>
    have h := ih.receive m
    rw [afterGit, run_concat, filterMap_concat]
    exact h

end Git

/-! ### Both managers -/

/-- The account manager behaves as a set of public keys after the messages. -/
structure AccountLaw (msgs : List (AccountMsg K × Fresh)) : Prop where
  set : ∀ new, SetLaw accountOp (fun l => (accountKeys (afterAccount l) new).keys) msgs
  answer : ∀ k new, (accountReceive (afterAccount msgs) new (.authorizeWithKey k)).2 =
    [.authorized (authorised (msgs.filterMap accountOp) k)]
  single : count (afterAccount msgs).currentODB ≤ 1

/-- The repository `u` behaves as a set of public keys after the messages. -/
structure RepositoryLaw (db : DBClient (Repository K)) (u : UUID) (msgs : List (GitMsg K × ℤ)) :
    Prop where
  set : SetLaw (gitOp u) (fun l => authorizedKeys (afterGit db l) u) msgs
  single : (findByUUIDCollection (afterGit db msgs).currentODB u).length = 1

theorem accountLaw_iff (msgs : List (AccountMsg K × Fresh)) :
    (∀ pre, pre <+: msgs → AccountLaw pre) ↔ OneKeyAtATime (msgs.filterMap accountOp) := by
  have hset : ∀ new, (∀ pre, pre <+: msgs → SetLaw accountOp
      (fun l => (accountKeys (afterAccount l) new).keys) pre) ↔
        OneKeyAtATime (msgs.filterMap accountOp) :=
    fun new => setLaw_iff (fun l => (accountInv_after l).keys new) msgs
  constructor
  · exact fun h => (hset ⟨⟨0, 0⟩, 0⟩).mp fun pre hp => (h pre hp).set _
  · intro h pre hp
    have hlaw := fun new => (hset new).mpr h pre hp
    refine ⟨hlaw, fun k new => ?_, ?_⟩
    · rw [← (hlaw new).answers k]; rfl
    · rcases (accountInv_after pre).2 with ⟨h1, -⟩ | ⟨o, h1, -⟩
      · simp [count, h1]
      · simp [count, h1]

theorem repositoryLaw_iff {db : DBClient (Repository K)} {u : UUID}
    {repo : Instance (Repository K)} (hw : WF db) (hf : db.find u = some repo)
    (hk : repo.value.authorizedKeys = empty) (msgs : List (GitMsg K × ℤ)) :
    (∀ pre, pre <+: msgs → RepositoryLaw db u pre) ↔
      OneKeyAtATime (msgs.filterMap (gitOp u)) := by
  have hset : (∀ pre, pre <+: msgs → SetLaw (gitOp u)
      (fun l => authorizedKeys (afterGit db l) u) pre) ↔
        OneKeyAtATime (msgs.filterMap (gitOp u)) :=
    setLaw_iff (fun l => (gitInv_after hw hf hk l).keys) msgs
  constructor
  · exact fun h => hset.mp fun pre hp => (h pre hp).set
  · intro h pre hp
    obtain ⟨hw', r, hr, -⟩ := gitInv_after hw hf hk pre
    refine ⟨hset.mpr h pre hp, ?_⟩
    rw [(find_eq_some hw').mp hr]; rfl

/-- **Authorised keys behave as a set of public keys exactly while there is one of them**: the law
holds all along a run of messages iff no key is added or removed while another one is authorised.
So it is for an account, and for a repository that starts without keys. -/
theorem keysLaw_iff :
    (∀ msgs : List (AccountMsg K × Fresh),
      (∀ pre, pre <+: msgs → AccountLaw pre) ↔ OneKeyAtATime (msgs.filterMap accountOp)) ∧
    ∀ (db : DBClient (Repository K)) (u : UUID) (repo : Instance (Repository K)),
      WF db → db.find u = some repo → repo.value.authorizedKeys = empty →
      ∀ msgs : List (GitMsg K × ℤ), (∀ pre, pre <+: msgs → RepositoryLaw db u pre) ↔
        OneKeyAtATime (msgs.filterMap (gitOp u)) :=
  ⟨accountLaw_iff, fun _ _ _ hw hf hk => repositoryLaw_iff hw hf hk⟩

/-- One key after another: the second is added when the first has been removed. -/
theorem keysLaw_oneAfterAnother :
    AccountLaw (K := X509Key) [(.addKey ⟨"a", ⟨[1]⟩⟩, ⟨⟨0, 1⟩, 10⟩),
      (.removeKey ⟨"a", ⟨[1]⟩⟩, ⟨⟨0, 2⟩, 20⟩), (.addKey ⟨"b", ⟨[2]⟩⟩, ⟨⟨0, 3⟩, 30⟩)] ∧
    RepositoryLaw (K := X509Key) (DBClient.init.saveNew ⟨"repo", empty, ⟨0, 1⟩, 0⟩) ⟨0, 1⟩
      [(.addAuthorizedKey ⟨0, 1⟩ ⟨"a", ⟨[1]⟩⟩, 10), (.removeAuthorizedKey ⟨0, 1⟩ ⟨"a", ⟨[1]⟩⟩, 20),
        (.addAuthorizedKey ⟨0, 1⟩ ⟨"b", ⟨[2]⟩⟩, 30)] := by
  have hone : OneKeyAtATime (K := X509Key) ([] ++ [.add ⟨"a", ⟨[1]⟩⟩] ++ [.remove ⟨"a", ⟨[1]⟩⟩] ++
      [.add ⟨"b", ⟨[2]⟩⟩]) := by
    refine ((oneKeyAtATime_nil.concat ?_).concat ?_).concat ?_
    · intro k _; rfl
    · intro k hk
      have hka : (KeyOp.add ⟨"a", ⟨[1]⟩⟩ : KeyOp X509Key).key.key ≠ k := Ne.symm hk
      rw [authorised_concat_other hka]; rfl
    · intro k _
      by_cases hka : k = ⟨[1]⟩
      · subst hka; rfl
      · have ha : (KeyOp.add ⟨"a", ⟨[1]⟩⟩ : KeyOp X509Key).key.key ≠ k := Ne.symm hka
        have hr : (KeyOp.remove ⟨"a", ⟨[1]⟩⟩ : KeyOp X509Key).key.key ≠ k := Ne.symm hka
        rw [authorised_concat_other hr, authorised_concat_other ha]; rfl
  refine ⟨(keysLaw_iff.1 _).mpr ?_ _ List.prefix_rfl,
    (keysLaw_iff.2 _ _ ⟨0, ⟨"repo", empty, ⟨0, 1⟩, 0⟩⟩ (wf_saveNew wf_init _) rfl rfl _).mpr ?_ _
      List.prefix_rfl⟩
  · exact hone
  · exact hone

/-- The second key added is not authorised. -/
theorem not_accountLaw_twoKeys :
    ¬ AccountLaw (K := X509Key) [(.addKey ⟨"default", ⟨[1]⟩⟩, ⟨⟨0, 1⟩, 10⟩),
      (.addKey ⟨"second", ⟨[2]⟩⟩, ⟨⟨0, 2⟩, 20⟩)] := by
  intro h
  have h1 := h.answer ⟨[2]⟩ ⟨⟨0, 3⟩, 30⟩
  exact absurd h1 (by decide)

end ServeD.Managers.Keys
