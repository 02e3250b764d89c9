import ServeD.Db.Invariant
import Mathlib.Logic.Function.Basic

/-! # The client is a map from uuids to objects

Seen through `find`, a client is a partial map from uuids to values (`toMap`). `<<` of a value `v`
sets the entry of its uuid, unless the entry equals `v` already; `~` clears it (`mapStep`), and
every operation of the client is that step of the map (`toMap_step`). What the map holds at `u` is
what the last operation on `u` that changed a database left there (`LastEffective`,
`toMap_of_lastEffective`).

`RefinesMap ops` collects what holds of the client after the operations `ops`. -/

namespace ServeD.Db.Refinement

open ServeD.Lib.ObjectStore ServeD.Lib.Runs ServeD.Api.Records ServeD.Db.Client ServeD.Db.Invariant
open ServeD.Api.Records.Persistent (uuid createdAt)

variable {T : Type} [Persistent T]

/-- The map a client stands for. -/
def toMap (db : DBClient T) (u : UUID) : Option T := (db.find u).map (·.value)

/-- An operation on the map. -/
inductive Event (T : Type) where
  | save (v : T)
  | remove (u : UUID)
  deriving DecidableEq, Repr

/-- The uuid an operation concerns. -/
def Event.key : Event T → UUID
  | .save v => uuid v
  | .remove u => u

/-- What the map holds at that uuid after an operation that was not a no-op. -/
def Event.result : Event T → Option T
  | .save v => some v
  | .remove _ => none

/-- The operation on the map that an operation of the client stands for. -/
def event (db : DBClient T) : Op T → Option (Event T)
  | .create _ => none
  | .save ref => (db.deref ref).map fun i => .save i.value
  | .removeObj ref => (db.deref ref).map fun i => .remove (uuid i.value)
  | .remove u => some (.remove u)
  | .reconnect => none

variable [BEq T]

/-- One step of the map. -/
def mapStep (m : UUID → Option T) : Event T → UUID → Option T
  | .save v => if (m (uuid v)).any (· == v) then m else Function.update m (uuid v) (some v)
  | .remove u => Function.update m u none

theorem mapStep_frame (m : UUID → Option T) {e : Event T} {u : UUID} (h : e.key ≠ u) :
    mapStep m e u = m u := by
  cases e with
  | save v =>
    simp only [mapStep]
    split_ifs
    · rfl
    · exact Function.update_of_ne (Ne.symm h) _ _
  | remove w => exact Function.update_of_ne (Ne.symm h) _ _

/-! ### Every operation is a step of the map -/

omit [BEq T] in
theorem toMap_congr {db db' : DBClient T} {u : UUID}
    (h : findByUUIDCollection db'.currentODB u = findByUUIDCollection db.currentODB u) :
    toMap db' u = toMap db u := by
  simp only [toMap, DBClient.find, h]

section Refines

variable {db : DBClient T} {i o : Instance T} {u : UUID}

omit [BEq T] in
theorem toMap_of_eq_singleton (h : findByUUIDCollection db.currentODB u = [o]) :
    toMap db u = some o.value := by
  simp [toMap, DBClient.find, h]

theorem toMap_save [ReflBEq T] (hw : WF db) (hi : db.heap[i.ref]? = some i.value) :
    toMap (db.save i) = mapStep (toMap db) (.save i.value) := by
  rcases h : db.find (uuid i.value) with _ | o
  · -- the uuid is new
    have hn : toMap db (uuid i.value) = none := by simp [toMap, h]
    funext u
    by_cases hu : uuid i.value = u
    · subst hu
      rw [toMap_of_eq_singleton (current_save_none hw hi h)]
      simp [mapStep, hn]
    · rw [toMap_congr (current_save_frame hw hi hu), mapStep_frame (e := .save i.value) _ hu]
  · have hs : toMap db (uuid i.value) = some o.value := by simp [toMap, h]
    rcases he : o.value == i.value with _ | _
    · funext u
      by_cases hu : uuid i.value = u
      · subst hu
        rw [toMap_of_eq_singleton (current_save_new hw hi h he)]
        simp [mapStep, hs, he]
      · rw [toMap_congr (current_save_frame hw hi hu), mapStep_frame (e := .save i.value) _ hu]
    · rw [save_same h he]
      simp [mapStep, hs, he]

variable [Neodatis T]

theorem toMap_remove (hw : WF db) (u : UUID) :
    toMap (db.remove u) = mapStep (toMap db) (.remove u) := by
  funext u'
  by_cases hu : u = u'
  · subst hu
    have hn : (db.remove u).find u = none := find_eq_none.mpr (current_remove hw u)
    simp [toMap, hn, mapStep]
  · rw [toMap_congr (current_remove_frame hw hu), mapStep_frame (e := .remove u) _ hu]

omit [BEq T] [Neodatis T] in
/-- A session that is opened again finds the values the last one left. -/
theorem toMap_reconnect (hw : WF db) : toMap db.reconnect = toMap db := by
  funext u
  have h := values_reopen hw.currentSettled db.heap.length u
  unfold toMap DBClient.find
  rw [← List.head?_map, ← List.head?_map, ← h]
  rfl

/-- **Refinement**: an operation of the client is a step of the map, or leaves the map as it is. -/
theorem toMap_step [ReflBEq T] (hw : WF db) (op : Op T) :
    toMap (db.step op) = (event db op).elim (toMap db) (mapStep (toMap db)) := by
  cases op with
  | create v => rfl
  | save ref =>
    rcases h : db.deref ref with _ | i
    · simp [DBClient.step, event, h]
    · simp only [DBClient.step, event, h]; exact toMap_save hw (onHeap_of_deref h)
  | removeObj ref =>
    rcases h : db.deref ref with _ | i
    · simp [DBClient.step, event, h]
    · simp only [DBClient.step, event, h]; exact toMap_remove hw _
  | remove u => exact toMap_remove hw u
  | reconnect => exact toMap_reconnect hw

end Refines

/-! ### The last operation that was not a no-op -/

variable [Neodatis T]

/-- The client after the operations `ops`, from two empty databases. -/
abbrev after (ops : List (Op T)) : DBClient T := run DBClient.step DBClient.init ops

/-- The operation leaves both databases as they are. -/
def Noop (db : DBClient T) (op : Op T) : Prop :=
  (db.step op).currentODB = db.currentODB ∧ (db.step op).historyODB = db.historyODB

/-- If the operation concerns `u` at all, it is a no-op. -/
def Quiet (u : UUID) (db : DBClient T) (op : Op T) : Prop :=
  ∀ e, event db op = some e → e.key = u → Noop db op

/-- `e` is the last operation of `ops` that concerned `u` and was not a no-op. -/
def LastEffective (ops : List (Op T)) (u : UUID) (e : Event T) : Prop :=
  ∃ pre op post, ops = pre ++ op :: post ∧ event (after pre) op = some e ∧ e.key = u ∧
    ¬ Noop (after pre) op ∧ Meets DBClient.step (Quiet u) ((after pre).step op) post

section Last

variable {db : DBClient T} {u : UUID}

theorem toMap_of_noop {op : Op T} (h : Noop db op) : toMap (db.step op) = toMap db := by
  funext u; exact toMap_congr (by rw [h.1])

theorem toMap_of_quiet [ReflBEq T] (hw : WF db) {op : Op T} (h : Quiet u db op) :
    toMap (db.step op) u = toMap db u := by
  rcases he : event db op with _ | e
  · rw [toMap_step hw op, he]; rfl
  · by_cases hk : e.key = u
    · rw [toMap_of_noop (h e he hk)]
    · rw [toMap_step hw op, he]; exact mapStep_frame _ hk

theorem noop_of_same {ref : ℕ} {i o : Instance T} (hr : db.deref ref = some i)
    (h : db.find (uuid i.value) = some o) (he : (o.value == i.value) = true) :
    Noop db (.save ref) := by
  simp only [Noop, DBClient.step, hr, Option.elim_some, save_same h he, and_self]

theorem toMap_of_effective [ReflBEq T] (hw : WF db) {op : Op T} {e : Event T}
    (he : event db op = some e) (hn : ¬ Noop db op) : toMap (db.step op) e.key = e.result := by
  rw [toMap_step hw op, he]
  cases e with
  | remove u => simp [mapStep, Event.key, Event.result]
  | save v =>
    -- only `<<` gives this event, and it is a no-op exactly on an equal value
    cases op with
    | save ref =>
      obtain ⟨i, hi, hv⟩ := Option.map_eq_some_iff.mp he
      cases hv
      have hne : ¬ (toMap db (uuid i.value)).any (· == i.value) = true := by
        intro ha
        rcases h : db.find (uuid i.value) with _ | o
        · simp [toMap, h] at ha
        · exact hn (noop_of_same hi h (by simpa [toMap, h] using ha))
      simp [mapStep, Event.key, Event.result, hne]
    | removeObj ref => simp [event] at he
    | _ => simp [event] at he

/-- A save of a uuid the map does not hold is not a no-op. -/
theorem not_noop_of_none [ReflBEq T] (hw : WF db) {op : Op T} {v : T}
    (he : event db op = some (.save v)) (hn : toMap db (uuid v) = none) : ¬ Noop db op := by
  intro hno
  have h1 : toMap (db.step op) (uuid v) = some v := by
    rw [toMap_step hw op, he]; simp [mapStep, hn]
  rw [toMap_of_noop hno, hn] at h1
  cases h1

theorem toMap_of_meets_quiet [ReflBEq T] {ops : List (Op T)} (hw : WF db)
    (h : Meets DBClient.step (Quiet u) db ops) :
    toMap (run DBClient.step db ops) u = toMap db u := by
  have hstep : ∀ s op, (WF s ∧ toMap s u = toMap db u) → Quiet u s op →
      WF (s.step op) ∧ toMap (s.step op) u = toMap db u :=
    fun s op ⟨h1, h2⟩ hq => ⟨wf_step h1 op, (toMap_of_quiet h1 hq).trans h2⟩
  exact (h.invariant (P := fun s => WF s ∧ toMap s u = toMap db u) hstep ⟨hw, rfl⟩).2

/-- **What the map holds at `u`** is the result of the last operation on `u` that was not a
no-op. -/
theorem toMap_of_lastEffective [ReflBEq T] {ops : List (Op T)} {e : Event T}
    (h : LastEffective ops u e) : toMap (after ops) u = e.result := by
  obtain ⟨pre, op, post, rfl, he, rfl, hn, hq⟩ := h
  have hw : WF (after pre) := wf_run pre
  have h1 := toMap_of_meets_quiet (wf_step hw op) hq
  rw [after, run_append, run_cons]
  exact h1.trans (toMap_of_effective hw he hn)

/-- Some operation on `u` was not a no-op, or none was. -/
theorem lastEffective_or_quiet (u : UUID) (ops : List (Op T)) :
    (∃ e, LastEffective ops u e) ∨ Meets DBClient.step (Quiet u) DBClient.init ops := by
  induction ops using List.reverseRecOn with
  | nil => exact Or.inr trivial
  | append_singleton ops op ih =>
    by_cases hq : Quiet u (after ops) op
    · rcases ih with ⟨e, pre, op', post, rfl, he, hk, hn, hm⟩ | ih
      · refine Or.inl ⟨e, pre, op', post ++ [op], by simp, he, hk, hn, ?_⟩
        rw [meets_concat]
        refine ⟨hm, ?_⟩
        rw [after, run_append, run_cons] at hq
        exact hq
      · exact Or.inr ((meets_concat ops op _).mpr ⟨ih, hq⟩)
    · simp only [Quiet, not_forall] at hq
      obtain ⟨e, he, hk, hn⟩ := hq
      exact Or.inl ⟨e, ops, op, [], rfl, he, hk, hn, trivial⟩

/-- No operation of `ops` was a save of `u`. -/
def NeverSaved (ops : List (Op T)) (u : UUID) : Prop :=
  Meets DBClient.step (fun db op => ∀ v, event db op = some (.save v) → uuid v ≠ u)
    DBClient.init ops

omit [BEq T] [Neodatis T] in
theorem toMap_init (u : UUID) : toMap (DBClient.init : DBClient T) u = none := rfl

/-- While the map does not hold `u` and `u` is not saved, every operation on `u` is a no-op. -/
theorem quiet_of_not_saved {op : Op T} (hn : toMap db u = none)
    (hs : ∀ v, event db op = some (.save v) → uuid v ≠ u) : Quiet u db op := by
  have hf : db.find u = none := by simpa [toMap] using hn
  intro e he hk
  cases op with
  | save ref =>
    obtain ⟨i, hi, rfl⟩ := Option.map_eq_some_iff.mp he
    exact absurd hk (hs _ he)
  | removeObj ref =>
    obtain ⟨i, hi, rfl⟩ := Option.map_eq_some_iff.mp he
    cases hk
    have hr : db.step (.removeObj ref) = db := by
      simp only [DBClient.step, hi]; exact remove_none hf
    exact ⟨by rw [hr], by rw [hr]⟩
  | remove w =>
    cases he
    cases hk
    have hr : db.step (.remove w) = db := remove_none hf
    exact ⟨by rw [hr], by rw [hr]⟩
  | _ => cases he

theorem meets_quiet_of_neverSaved [ReflBEq T] {ops : List (Op T)} (h : NeverSaved ops u) :
    Meets DBClient.step (Quiet u) DBClient.init ops := by
  induction ops using List.reverseRecOn with
  | nil => trivial
  | append_singleton ops op ih =>
    obtain ⟨h1, h2⟩ := (meets_concat ops op _).mp h
    have hq := ih h1
    refine (meets_concat ops op _).mpr ⟨hq, quiet_of_not_saved ?_ h2⟩
    rw [toMap_of_meets_quiet wf_init hq, toMap_init]

theorem neverSaved_of_meets_quiet [ReflBEq T] {ops : List (Op T)}
    (h : Meets DBClient.step (Quiet u) DBClient.init ops) : NeverSaved ops u := by
  induction ops using List.reverseRecOn with
  | nil => trivial
  | append_singleton ops op ih =>
    obtain ⟨h1, h2⟩ := (meets_concat ops op _).mp h
    refine (meets_concat ops op _).mpr ⟨ih h1, ?_⟩
    rintro v hv rfl
    -- the first save of the uuid would have changed the databases
    have hn : toMap (after ops) (uuid v) = none := by
      rw [after, toMap_of_meets_quiet wf_init h1, toMap_init]
    exact not_noop_of_none (wf_run ops) hv hn (h2 _ hv rfl)

end Last

/-! ### Queries -/

section Queries

variable {db : DBClient T}

omit [BEq T] [Neodatis T] in
theorem find_of_mem (hw : WF db) {o : Instance T} (ho : o ∈ db.currentODB.objects) :
    db.find (uuid o.value) = some o := by
  rcases h : db.find (uuid o.value) with _ | o'
  · exact absurd ho (not_mem_of_find_none h rfl)
  · rw [eq_of_find hw h ho rfl]

omit [BEq T] [Neodatis T] in
/-- The uuids of the objects, each once. -/
theorem nodup_uuids (hw : WF db) : (db.currentODB.objects.map fun o => uuid o.value).Nodup := by
  refine List.pairwise_map.mpr (List.pairwise_iff_forall_sublist.mpr ?_)
  intro a b hab he
  have ha : uuidMatch (uuid a.value) a.value = true := uuidMatch_iff.mpr rfl
  have hb : uuidMatch (uuid a.value) b.value = true := uuidMatch_iff.mpr he.symm
  have hsub := (hab.filter fun o => uuidMatch (uuid a.value) o.value).length_le
  have hle := hsub.trans (hw.unique (uuid a.value))
  simp [ha, hb] at hle

omit [BEq T] [Neodatis T] in
theorem filterMap_find (hw : WF db) :
    (db.currentODB.objects.map fun o => uuid o.value).filterMap db.find =
      db.currentODB.objects := by
  rw [List.filterMap_map]
  refine (List.filterMap_congr fun o ho => ?_).trans List.filterMap_some
  exact find_of_mem hw ho

omit [BEq T] [Neodatis T] in
theorem mem_uuids (hw : WF db) (u : UUID) :
    u ∈ (db.currentODB.objects.map fun o => uuid o.value) ↔ (db.find u).isSome := by
  constructor
  · intro h
    obtain ⟨o, ho, rfl⟩ := List.mem_map.mp h
    rw [find_of_mem hw ho]; rfl
  · intro h
    obtain ⟨o, ho⟩ := Option.isSome_iff_exists.mp h
    obtain ⟨h1, h2⟩ := find_mem ho
    exact List.mem_map.mpr ⟨o, h1, h2⟩

end Queries

/-! ### The refinement -/

/-- What holds of the client after the operations `ops`: it is the map of the values last saved. -/
structure RefinesMap (ops : List (Op T)) : Prop where
  /-- at most one object for a uuid -/
  unique : ∀ u, (findByUUIDCollection (after ops).currentODB u).length ≤ 1
  /-- the lookup finds a value equal to `v` exactly when such a value was last saved -/
  lookup_some : ∀ u v, (∃ o, (after ops).find u = some o ∧ (o.value == v) = true) ↔
    ∃ w, LastEffective ops u (.save w) ∧ (w == v) = true
  /-- and nothing exactly when the uuid was never saved, or last removed -/
  lookup_none : ∀ u, (after ops).find u = none ↔
    NeverSaved ops u ∨ LastEffective ops u (.remove u)
  /-- `<<` of a value equal to the current one changes neither database -/
  equal_noop : ∀ ref i o, (after ops).deref ref = some i →
    (after ops).find (uuid i.value) = some o →
    (i.value == o.value) = true → Noop (after ops) (.save ref)
  /-- the queries range over the values of the map, each once -/
  queries : ∃ keys : List UUID, keys.Nodup ∧ (∀ u, u ∈ keys ↔ ((after ops).find u).isSome) ∧
    classQueryCollection (after ops).currentODB = keys.filterMap (after ops).find ∧
    count (after ops).currentODB = keys.length ∧
    ∀ p, nativeQueryCollection (after ops).currentODB p =
      (keys.filterMap (after ops).find).filter fun o => p o.value
  /-- an operation on one uuid changes no record of another, in either database -/
  frame : ∀ op e u, event (after ops) op = some e → e.key ≠ u →
    findByUUIDCollection ((after ops).step op).currentODB u =
      findByUUIDCollection (after ops).currentODB u ∧
    findByUUIDCollection ((after ops).step op).historyODB u =
      findByUUIDCollection (after ops).historyODB u

theorem frame_step {db : DBClient T} (hw : WF db) {op : Op T} {e : Event T} {u : UUID}
    (he : event db op = some e) (hk : e.key ≠ u) :
    findByUUIDCollection (db.step op).currentODB u = findByUUIDCollection db.currentODB u ∧
      findByUUIDCollection (db.step op).historyODB u = findByUUIDCollection db.historyODB u := by
  cases op with
  | save ref =>
    obtain ⟨i, hi, rfl⟩ := Option.map_eq_some_iff.mp he
    have hh := onHeap_of_deref hi
    simp only [DBClient.step, hi]
    exact ⟨current_save_frame hw hh hk, history_save_frame hw hh hk⟩
  | removeObj ref =>
    obtain ⟨i, hi, rfl⟩ := Option.map_eq_some_iff.mp he
    simp only [DBClient.step, hi]
    exact ⟨current_remove_frame hw hk, history_remove_frame hw hk⟩
  | remove w =>
    cases he
    exact ⟨current_remove_frame hw hk, history_remove_frame hw hk⟩
  | _ => cases he

section Lookup

variable [ReflBEq T] {ops : List (Op T)} {u : UUID}

omit [ReflBEq T] in
theorem LastEffective.key_eq {e : Event T} (h : LastEffective ops u e) : e.key = u := by
  obtain ⟨-, -, -, -, -, hk, -, -⟩ := h; exact hk

theorem lookup_some_iff (v : T) :
    (∃ o, (after ops).find u = some o ∧ (o.value == v) = true) ↔
      ∃ w, LastEffective ops u (.save w) ∧ (w == v) = true := by
  constructor
  · rintro ⟨o, ho, hv⟩
    have ha : toMap (after ops) u = some o.value := by simp [toMap, ho]
    rcases lastEffective_or_quiet u ops with ⟨e, he⟩ | hq
    · have hr := toMap_of_lastEffective he
      rw [ha] at hr
      cases e with
      | save w => cases hr; exact ⟨_, he, hv⟩
      | remove w => cases hr
    · rw [after, toMap_of_meets_quiet wf_init hq, toMap_init] at ha
      cases ha
  · rintro ⟨w, he, hv⟩
    have hr := toMap_of_lastEffective he
    obtain ⟨o, ho, rfl⟩ := Option.map_eq_some_iff.mp hr
    exact ⟨o, ho, hv⟩

theorem lookup_none_iff :
    (after ops).find u = none ↔ NeverSaved ops u ∨ LastEffective ops u (.remove u) := by
  have hnone : (after ops).find u = none ↔ toMap (after ops) u = none := by simp [toMap]
  rw [hnone]
  constructor
  · intro hn
    rcases lastEffective_or_quiet u ops with ⟨e, he⟩ | hq
    · have hr := toMap_of_lastEffective he
      rw [hn] at hr
      cases e with
      | save w => cases hr
      | remove w => cases he.key_eq; exact Or.inr he
    · exact Or.inl (neverSaved_of_meets_quiet hq)
  · rintro (h | h)
    · rw [after, toMap_of_meets_quiet wf_init (meets_quiet_of_neverSaved h), toMap_init]
    · exact toMap_of_lastEffective h

end Lookup

end ServeD.Db.Refinement
