import ServeD.Db.Client

/-! # What an operation does to the two databases

Between operations a client is well formed (`WF`): the objects of both databases live on the heap,
the current database holds at most one object for a uuid, and both databases are committed. Each
operation is described once, by what it does to the query by uuid (`findByUUIDCollection`):

* `save_none`, `save_same`, `save_new`: the three branches of `<<`, with the steps performed;
* `remove_none`, `remove_some`: the two branches of `~`;
* `current_save`, `history_save`, `current_remove`, `history_remove`: the query by the operation's
  own uuid afterwards; `find_frame`: nothing is changed for another uuid;
* `wf_step`, `wf_run`: every operation keeps `WF`. -/

namespace ServeD.Db.Invariant

open ServeD.Lib.ObjectStore ServeD.Lib.Runs ServeD.Api.Records ServeD.Db.Client
open ServeD.Api.Records.Persistent (uuid createdAt)

variable {T : Type} [Persistent T]

theorem uuidMatch_iff {u : UUID} {v : T} : uuidMatch u v = true ↔ uuid v = u := by
  obtain ⟨m, l⟩ := u
  unfold uuidMatch
  rcases h : uuid v with ⟨m', l'⟩
  simp [UUID.mk.injEq]

theorem uuidMatch_eq_false {u : UUID} {v : T} (h : uuid v ≠ u) : uuidMatch u v = false := by
  rw [← Bool.not_eq_true, uuidMatch_iff]; exact h

theorem mem_findByUUID {odb : Odb T} {u : UUID} {o : Instance T} :
    o ∈ findByUUIDCollection odb u ↔ o ∈ odb.objects ∧ uuid o.value = u := by
  rw [findByUUIDCollection, Odb.mem_getObjects, uuidMatch_iff]

/-- A client between two operations. -/
structure WF (db : DBClient T) : Prop where
  current : OnHeap db.heap db.currentODB.objects
  history : OnHeap db.heap db.historyODB.objects
  unique : ∀ u, (findByUUIDCollection db.currentODB u).length ≤ 1
  currentSettled : db.currentODB.committed = db.currentODB.objects.map (·.value)
  historySettled : db.historyODB.committed = db.historyODB.objects.map (·.value)

theorem wf_init : WF (DBClient.init : DBClient T) where
  current := fun o ho => absurd ho (by simp [DBClient.init, Odb.empty])
  history := fun o ho => absurd ho (by simp [DBClient.init, Odb.empty])
  unique := fun u => by simp [DBClient.init, findByUUIDCollection]
  currentSettled := rfl
  historySettled := rfl

section Find

variable {db : DBClient T} {u : UUID} {o : Instance T}

theorem find_eq_none : db.find u = none ↔ findByUUIDCollection db.currentODB u = [] := by
  unfold DBClient.find; exact List.head?_eq_none_iff

theorem find_eq_some (hw : WF db) :
    db.find u = some o ↔ findByUUIDCollection db.currentODB u = [o] := by
  unfold DBClient.find
  have h1 := hw.unique u
  rcases hq : findByUUIDCollection db.currentODB u with _ | ⟨a, _ | ⟨b, l⟩⟩
  · simp
  · simp
  · rw [hq] at h1; simp at h1

theorem find_mem (h : db.find u = some o) : o ∈ db.currentODB.objects ∧ uuid o.value = u :=
  mem_findByUUID.mp (List.mem_of_head? h)

theorem find_onHeap (hw : WF db) (h : db.find u = some o) : db.heap[o.ref]? = some o.value :=
  hw.current o (find_mem h).1

/-- The object found is the only one of its uuid. -/
theorem eq_of_find (hw : WF db) (h : db.find u = some o) {i : Instance T}
    (hi : i ∈ db.currentODB.objects) (hu : uuid i.value = u) : i = o := by
  have hm : i ∈ findByUUIDCollection db.currentODB u := mem_findByUUID.mpr ⟨hi, hu⟩
  rw [(find_eq_some hw).mp h] at hm
  exact List.mem_singleton.mp hm

theorem not_mem_of_find_none (h : db.find u = none) {i : Instance T} (hu : uuid i.value = u) :
    i ∉ db.currentODB.objects := by
  intro hi
  have hm : i ∈ findByUUIDCollection db.currentODB u := mem_findByUUID.mpr ⟨hi, hu⟩
  rw [find_eq_none.mp h] at hm
  exact absurd hm (by simp)

end Find

omit [Persistent T] in
theorem deref_eq_some {db : DBClient T} {ref : ℕ} {i : Instance T} :
    db.deref ref = some i ↔ i.ref = ref ∧ db.heap[ref]? = some i.value := by
  obtain ⟨r, v⟩ := i
  simp only [DBClient.deref, Option.map_eq_some_iff, Instance.mk.injEq]
  constructor
  · rintro ⟨w, hw, rfl, rfl⟩; exact ⟨rfl, hw⟩
  · rintro ⟨rfl, h⟩; exact ⟨v, h, rfl, rfl⟩

omit [Persistent T] in
theorem onHeap_of_deref {db : DBClient T} {ref : ℕ} {i : Instance T} (h : db.deref ref = some i) :
    db.heap[i.ref]? = some i.value := by
  obtain ⟨rfl, hv⟩ := deref_eq_some.mp h; exact hv

/-! ### The branches -/

section Branches

variable [BEq T] {db : DBClient T} {i o : Instance T} {u : UUID}

theorem save_none (h : db.find (uuid i.value) = none) :
    db.save i = { db with
      currentODB := (db.currentODB.store i).commit
      historyODB := (db.historyODB.store i).commit } := by
  simp only [DBClient.save, DBClient.saveSteps, h]; rfl

theorem save_same (h : db.find (uuid i.value) = some o) (he : (o.value == i.value) = true) :
    db.save i = db := by
  simp [DBClient.save, DBClient.saveSteps, h, bne, he]

theorem save_new (h : db.find (uuid i.value) = some o) (he : (o.value == i.value) = false) :
    db.save i = { db with
      currentODB := ((db.currentODB.store i).delete o).commit
      historyODB := (db.historyODB.store o).commit } := by
  simp only [DBClient.save, DBClient.saveSteps, h, bne, he]; rfl

variable [Neodatis T]

/-- The newest record of `o` in the history equals it. -/
def Recorded (db : DBClient T) (o : Instance T) : Prop :=
  ∃ r, (findByUUIDOrderedCollection db.historyODB (uuid o.value)).head? = some r ∧
    (r.value == o.value) = true

instance (db : DBClient T) (o : Instance T) : Decidable (Recorded db o) :=
  match h : (findByUUIDOrderedCollection db.historyODB (uuid o.value)).head? with
  | none => isFalse (by rintro ⟨r, hr, -⟩; rw [h] at hr; cases hr)
  | some r =>
    if hr : (r.value == o.value) = true then isTrue ⟨r, h, hr⟩
    else isFalse (by rintro ⟨r', hr', he⟩; rw [h] at hr'; cases hr'; exact hr he)

theorem removeSteps_none (h : db.find u = none) : db.removeSteps u = [] := by
  simp only [DBClient.removeSteps, h]

theorem removeSteps_some (h : db.find u = some o) :
    db.removeSteps u = (if Recorded db o then [] else [.store .history o, .commit .history]) ++
      [.delete .current o, .commit .current] := by
  simp only [DBClient.removeSteps, h]
  congr 1
  rcases hh : (findByUUIDOrderedCollection db.historyODB (uuid o.value)).head? with _ | r
  · have hn : ¬ Recorded db o := by rintro ⟨r, hr, -⟩; rw [hh] at hr; cases hr
    rw [if_neg hn]
  · by_cases he : (r.value == o.value) = true
    · have hy : Recorded db o := ⟨r, hh, he⟩
      simp only [he, if_true, if_pos hy]
    · have hn : ¬ Recorded db o := by rintro ⟨r', hr', he'⟩; rw [hh] at hr'; cases hr'; exact he he'
      simp only [if_neg he, if_neg hn]

theorem remove_none (h : db.find u = none) : db.remove u = db := by
  rw [DBClient.remove, removeSteps_none h]; rfl

theorem remove_some (h : db.find u = some o) :
    db.remove u = { db with
      currentODB := (db.currentODB.delete o).commit
      historyODB := if Recorded db o then db.historyODB else (db.historyODB.store o).commit } := by
  rw [DBClient.remove, removeSteps_some h]
  split_ifs <;> rfl

end Branches

/-! ### The operation's own uuid -/

section Own

variable [BEq T] {db : DBClient T} {i o : Instance T} {u : UUID}

omit [BEq T] in
theorem history_store (hw : WF db) (hi : db.heap[i.ref]? = some i.value) :
    findByUUIDCollection (db.historyODB.store i) (uuid i.value) =
      findByUUIDCollection db.historyODB (uuid i.value) ++
        if db.historyODB.Knows i then [] else [i] :=
  Odb.getObjects_store hw.history hi (uuidMatch_iff.mpr rfl)

theorem history_save_none (hw : WF db) (hi : db.heap[i.ref]? = some i.value)
    (h : db.find (uuid i.value) = none) :
    findByUUIDCollection (db.save i).historyODB (uuid i.value) =
      findByUUIDCollection db.historyODB (uuid i.value) ++
        if db.historyODB.Knows i then [] else [i] := by
  rw [save_none h]; exact history_store hw hi

theorem history_save_new (hw : WF db) (h : db.find (uuid i.value) = some o)
    (he : (o.value == i.value) = false) :
    findByUUIDCollection (db.save i).historyODB (uuid i.value) =
      findByUUIDCollection db.historyODB (uuid i.value) ++
        if db.historyODB.Knows o then [] else [o] := by
  rw [save_new h he, ← (find_mem h).2]
  exact history_store hw (find_onHeap hw h)

theorem current_save_none (hw : WF db) (hi : db.heap[i.ref]? = some i.value)
    (h : db.find (uuid i.value) = none) :
    findByUUIDCollection (db.save i).currentODB (uuid i.value) = [i] := by
  have hk : ¬ db.currentODB.Knows i := fun hk =>
    not_mem_of_find_none h rfl ((Odb.knows_iff hw.current hi).mp hk)
  have hs := Odb.getObjects_store hw.current hi (uuidMatch_iff.mpr rfl)
  have hq := find_eq_none.mp h
  rw [findByUUIDCollection] at hq ⊢
  rw [save_none h, Odb.getObjects_commit, hs, hq, if_neg hk, List.nil_append]

theorem current_save_new [ReflBEq T] (hw : WF db) (hi : db.heap[i.ref]? = some i.value)
    (h : db.find (uuid i.value) = some o) (he : (o.value == i.value) = false) :
    findByUUIDCollection (db.save i).currentODB (uuid i.value) = [i] := by
  have hio : i ≠ o := by rintro rfl; simp at he
  -- the object replaced is another one, so the new object is not known to the session
  have hk : ¬ db.currentODB.Knows i := fun hk =>
    hio (eq_of_find hw h ((Odb.knows_iff hw.current hi).mp hk) rfl)
  have hr : i.ref ≠ o.ref := fun hr =>
    hio (hw.current.eq_of_ref hi (find_mem h).1 hr.symm).symm
  have hs := Odb.getObjects_store hw.current hi (uuidMatch_iff.mpr rfl)
  have hq := (find_eq_some hw).mp h
  rw [findByUUIDCollection] at hq ⊢
  rw [save_new h he, Odb.getObjects_commit, Odb.getObjects_delete, hs, hq, if_neg hk]
  simp [hr]

variable [Neodatis T]

theorem current_remove (hw : WF db) (u : UUID) :
    findByUUIDCollection (db.remove u).currentODB u = [] := by
  rcases h : db.find u with _ | o
  · rw [remove_none h]; exact find_eq_none.mp h
  · have hq := (find_eq_some hw).mp h
    rw [findByUUIDCollection] at hq ⊢
    rw [remove_some h, Odb.getObjects_commit, Odb.getObjects_delete, hq]
    simp

theorem history_remove (hw : WF db) (h : db.find u = some o) :
    findByUUIDCollection (db.remove u).historyODB u = findByUUIDCollection db.historyODB u ++
      if Recorded db o ∨ db.historyODB.Knows o then [] else [o] := by
  rw [remove_some h]
  by_cases hr : Recorded db o
  · simp [hr]
  · simp only [hr, if_false, false_or]
    rw [← (find_mem h).2]
    exact history_store hw (find_onHeap hw h)

end Own

/-! ### The other uuids -/

section Frame

variable [BEq T] {db : DBClient T} {i : Instance T} {u : UUID}

theorem current_save_frame (hw : WF db) (hi : db.heap[i.ref]? = some i.value)
    (hu : uuid i.value ≠ u) :
    findByUUIDCollection (db.save i).currentODB u = findByUUIDCollection db.currentODB u := by
  have hp := uuidMatch_eq_false hu
  have hs := Odb.getObjects_store_of_false hw.current hi hp
  rcases h : db.find (uuid i.value) with _ | o
  · rw [save_none h]; exact hs
  · rcases he : o.value == i.value with _ | _
    · have ho := find_onHeap hw h
      have hpo : uuidMatch u o.value = false :=
        uuidMatch_eq_false (by rw [(find_mem h).2]; exact hu)
      rw [save_new h he]
      exact (Odb.getObjects_delete_of_false (Odb.onHeap_store hw.current hi) ho hpo).trans hs
    · rw [save_same h he]

theorem history_save_frame (hw : WF db) (hi : db.heap[i.ref]? = some i.value)
    (hu : uuid i.value ≠ u) :
    findByUUIDCollection (db.save i).historyODB u = findByUUIDCollection db.historyODB u := by
  rcases h : db.find (uuid i.value) with _ | o
  · rw [save_none h]
    exact Odb.getObjects_store_of_false hw.history hi (uuidMatch_eq_false hu)
  · rcases he : o.value == i.value with _ | _
    · rw [save_new h he]
      exact Odb.getObjects_store_of_false hw.history (find_onHeap hw h)
        (uuidMatch_eq_false (by rw [(find_mem h).2]; exact hu))
    · rw [save_same h he]

variable [Neodatis T]

theorem current_remove_frame (hw : WF db) {u' : UUID} (hu : u' ≠ u) :
    findByUUIDCollection (db.remove u').currentODB u = findByUUIDCollection db.currentODB u := by
  rcases h : db.find u' with _ | o
  · rw [remove_none h]
  · rw [remove_some h]
    exact Odb.getObjects_delete_of_false hw.current (find_onHeap hw h)
      (uuidMatch_eq_false (by rw [(find_mem h).2]; exact hu))

theorem history_remove_frame (hw : WF db) {u' : UUID} (hu : u' ≠ u) :
    findByUUIDCollection (db.remove u').historyODB u = findByUUIDCollection db.historyODB u := by
  rcases h : db.find u' with _ | o
  · rw [remove_none h]
  · rw [remove_some h]
    by_cases hr : Recorded db o
    · simp only [if_pos hr]
    · simp only [if_neg hr]
      exact Odb.getObjects_store_of_false hw.history (find_onHeap hw h)
        (uuidMatch_eq_false (by rw [(find_mem h).2]; exact hu))

end Frame

/-! ### Well-formedness is kept -/

section WF

variable [BEq T] {db : DBClient T} {i : Instance T}

theorem heap_save (db : DBClient T) (i : Instance T) : (db.save i).heap = db.heap := by
  rcases h : db.find (uuid i.value) with _ | o
  · rw [save_none h]
  · rcases he : o.value == i.value with _ | _
    · rw [save_new h he]
    · rw [save_same h he]

theorem unique_save [ReflBEq T] (hw : WF db) (hi : db.heap[i.ref]? = some i.value) (u : UUID) :
    (findByUUIDCollection (db.save i).currentODB u).length ≤ 1 := by
  by_cases hu : uuid i.value = u
  · subst hu
    rcases h : db.find (uuid i.value) with _ | o
    · rw [current_save_none hw hi h]; simp
    · rcases he : o.value == i.value with _ | _
      · rw [current_save_new hw hi h he]; simp
      · rw [save_same h he]; exact hw.unique _
  · rw [current_save_frame hw hi hu]; exact hw.unique u

theorem wf_save [ReflBEq T] (hw : WF db) (hi : db.heap[i.ref]? = some i.value) :
    WF (db.save i) := by
  have hun := unique_save hw hi
  rcases h : db.find (uuid i.value) with _ | o
  · rw [save_none h] at hun ⊢
    exact ⟨Odb.onHeap_store hw.current hi, Odb.onHeap_store hw.history hi, hun, rfl, rfl⟩
  · rcases he : o.value == i.value with _ | _
    · have ho := find_onHeap hw h
      rw [save_new h he] at hun ⊢
      exact ⟨Odb.onHeap_delete (Odb.onHeap_store hw.current hi) o,
        Odb.onHeap_store hw.history ho, hun, rfl, rfl⟩
    · rw [save_same h he]; exact hw

theorem wf_remove [Neodatis T] (hw : WF db) (u : UUID) : WF (db.remove u) := by
  rcases h : db.find u with _ | o
  · rw [remove_none h]; exact hw
  · have hun : ∀ u', (findByUUIDCollection (db.remove u).currentODB u').length ≤ 1 := by
      intro u'
      by_cases hu : u = u'
      · subst hu; rw [current_remove hw]; simp
      · rw [current_remove_frame hw hu]; exact hw.unique u'
    rw [remove_some h] at hun ⊢
    refine ⟨Odb.onHeap_delete hw.current o, ?_, hun, rfl, ?_⟩
    · show OnHeap db.heap (if Recorded db o then _ else _ : Odb T).objects
      split_ifs
      · exact hw.history
      · exact Odb.onHeap_store hw.history (find_onHeap hw h)
    · show (if Recorded db o then _ else _ : Odb T).committed = _
      split_ifs
      · exact hw.historySettled
      · rfl

omit [BEq T] in
theorem wf_create (hw : WF db) (v : T) : WF (db.create v) :=
  ⟨hw.current.append_heap [v], hw.history.append_heap [v], hw.unique, hw.currentSettled,
    hw.historySettled⟩

omit [BEq T] in
/-- A session opened on a settled database finds the values the last session left. -/
theorem values_reopen {odb : Odb T} (h : odb.committed = odb.objects.map (·.value)) (next : ℕ)
    (u : UUID) : (findByUUIDCollection (odb.reopen next) u).map (·.value) =
      (findByUUIDCollection odb u).map (·.value) := by
  have h1 := map_value_filter_load (uuidMatch u) next odb.committed
  unfold findByUUIDCollection Odb.getObjects Odb.reopen
  rw [h1, h, List.filter_map]
  rfl

omit [BEq T] in
/-- The values on disk of the current database have at most one for a uuid. -/
def Durable (db : DBClient T) : Prop :=
  ∀ u, (db.currentODB.committed.filter (uuidMatch u)).length ≤ 1

omit [BEq T] in
theorem WF.durable (hw : WF db) : Durable db := by
  intro u
  have h := hw.unique u
  rw [hw.currentSettled, List.filter_map, List.length_map]
  exact h

omit [BEq T] in
/-- Whatever a client was doing, it is well formed when it is opened again. -/
theorem wf_reconnect (hd : Durable db) : WF db.reconnect := by
  refine ⟨onHeap_load _ _ _, ?_, fun u => ?_, ?_, ?_⟩
  · have h := onHeap_load (db.heap ++ db.currentODB.committed) db.historyODB.committed []
    rw [List.append_nil] at h
    exact h
  · have h := map_value_filter_load (uuidMatch u) db.heap.length db.currentODB.committed
    have hl := congrArg List.length h
    rw [List.length_map] at hl
    show (List.filter _ (load _ _)).length ≤ 1
    rw [hl]
    exact hd u
  · exact (map_value_load _ _).symm
  · exact (map_value_load _ _).symm

/-- **An operation keeps the client well formed.** -/
theorem wf_step [ReflBEq T] [Neodatis T] (hw : WF db) (op : Op T) : WF (db.step op) := by
  cases op with
  | create v => exact wf_create hw v
  | save ref =>
    rcases h : db.deref ref with _ | i
    · simp only [DBClient.step, h]; exact hw
    · simp only [DBClient.step, h]; exact wf_save hw (onHeap_of_deref h)
  | removeObj ref =>
    rcases h : db.deref ref with _ | i
    · simp only [DBClient.step, h]; exact hw
    · simp only [DBClient.step, h]; exact wf_remove hw _
  | remove u => exact wf_remove hw u
  | reconnect => exact wf_reconnect hw.durable

/-- **Every reachable client is well formed.** -/
theorem wf_run [ReflBEq T] [Neodatis T] (ops : List (Op T)) :
    WF (run DBClient.step (DBClient.init : DBClient T) ops) :=
  run_invariant (P := WF) (fun _ op h => wf_step h op) ops _ wf_init

end WF

/-- `~` removes the objects of the uuid, of which there is at most one. -/
theorem objects_remove [BEq T] [Neodatis T] {db : DBClient T} (hw : WF db) (u : UUID) :
    (db.remove u).currentODB.objects =
      db.currentODB.objects.filter fun o => uuid o.value ≠ u := by
  rcases h : db.find u with _ | o
  · rw [remove_none h]
    refine (List.filter_eq_self.mpr fun a ha => ?_).symm
    simpa using fun hu => not_mem_of_find_none h hu ha
  · rw [remove_some h]
    refine List.filter_congr fun a ha => ?_
    have hiff : a.ref = o.ref ↔ uuid a.value = u := by
      constructor
      · intro hr
        rw [hw.current.eq_of_ref (find_onHeap hw h) ha hr]
        exact (find_mem h).2
      · intro hu
        rw [eq_of_find hw h ha hu]
    simp [hiff]

/-! ### An object constructed for `<<` -/

section SaveNew

variable [BEq T] {db : DBClient T} {o : Instance T} {v : T}

omit [Persistent T] [BEq T] in
theorem onHeap_create (db : DBClient T) (v : T) : (db.create v).heap[db.heap.length]? = some v := by
  simp [DBClient.create]

theorem wf_saveNew [ReflBEq T] (hw : WF db) (v : T) : WF (db.saveNew v) :=
  wf_save (wf_create hw v) (onHeap_create db v)

omit [BEq T] in
/-- The object is not one of those stored. -/
theorem not_knows_create (hw : WF db) (v : T) :
    ¬ db.currentODB.Knows (⟨db.heap.length, v⟩ : Instance T) := by
  intro hk
  obtain ⟨a, ha, hr⟩ := List.mem_map.mp hk
  have hlt := (List.getElem?_eq_some_iff.mp (hw.current a ha)).1
  have hr' : a.ref = db.heap.length := hr
  omega

omit [BEq T] in
theorem objects_store_create (hw : WF db) (v : T) :
    (db.currentODB.store ⟨db.heap.length, v⟩).objects =
      db.currentODB.objects ++ [⟨db.heap.length, v⟩] := by
  refine (Odb.objects_store (wf_create hw v).current (onHeap_create db v)).trans ?_
  exact congrArg _ (if_neg (not_knows_create hw v))

theorem objects_saveNew_none (hw : WF db) (h : db.find (uuid v) = none) :
    (db.saveNew v).currentODB.objects = db.currentODB.objects ++ [⟨db.heap.length, v⟩] := by
  rw [DBClient.saveNew, save_none (by exact h)]
  exact objects_store_create hw v

theorem saveNew_same (h : db.find (uuid v) = some o) (he : (o.value == v) = true) :
    db.saveNew v = db.create v :=
  save_same (by exact h) he

theorem objects_saveNew_new (hw : WF db) (h : db.find (uuid v) = some o)
    (he : (o.value == v) = false) :
    (db.saveNew v).currentODB.objects =
      (db.currentODB.objects.filter fun a => a.ref ≠ o.ref) ++ [⟨db.heap.length, v⟩] := by
  rw [DBClient.saveNew, save_new (by exact h) he]
  show ((db.currentODB.store _).objects.filter _) = _
  have hlt := (List.getElem?_eq_some_iff.mp (find_onHeap hw h)).1
  have hr : db.heap.length ≠ o.ref := by omega
  rw [objects_store_create hw v, List.filter_append]
  simp [hr]

/-- After `<<` of an object that differs from the stored one, the query finds it. -/
theorem find_saveNew [ReflBEq T] (hw : WF db)
    (he : ∀ o, db.find (uuid v) = some o → (o.value == v) = false) :
    (db.saveNew v).find (uuid v) = some ⟨db.heap.length, v⟩ := by
  have hw' := wf_create hw v
  rw [find_eq_some (wf_saveNew hw v)]
  rcases h : db.find (uuid v) with _ | o
  · exact current_save_none hw' (onHeap_create db v) h
  · exact current_save_new hw' (onHeap_create db v) h (he o h)

theorem find_saveNew_frame (hw : WF db) {u : UUID} (hu : uuid v ≠ u) :
    (db.saveNew v).find u = db.find u := by
  unfold DBClient.find DBClient.saveNew
  rw [current_save_frame (wf_create hw v) (onHeap_create db v) hu]
  rfl

end SaveNew

end ServeD.Db.Invariant
