import ServeD.Db.Invariant

/-! # Interrupted operations

An operation can be cut off between any two of its calls (`Ev.cut op k` performs the first `k` of
them); what was not committed is then discarded, database by database, and the client is opened
again. `files_save_none`, `files_save_new` and `files_remove` list what the two files can hold after
a cut: `<<` of a new uuid commits the current database first, a replacing `<<` and `~` commit the
history first. Hence a value of the current file stays in it, or is, up to equality, in the history
(`Kept`), at every cut and over every run (`no_version_lost`). -/

namespace ServeD.Db.Crash

open ServeD.Lib.ObjectStore ServeD.Lib.Runs ServeD.Api.Records ServeD.Db.Client ServeD.Db.Invariant
open ServeD.Api.Records.Persistent (uuid createdAt)

variable {T : Type} [Persistent T] [BEq T] [Neodatis T]

/-- An operation, completed or cut off after `k` calls. -/
inductive Ev (T : Type) where
  | op (op : Op T)
  | cut (op : Op T) (k : ℕ)
  deriving DecidableEq, Repr

/-- The client after the first `k` calls of an operation. -/
def cutAt (db : DBClient T) (op : Op T) (k : ℕ) : DBClient T :=
  run DBClient.exec db ((db.opSteps op).take k)

def step (db : DBClient T) : Ev T → DBClient T
  | .op op => db.step op
  | .cut op k => (cutAt db op k).reconnect

omit [Persistent T] [BEq T] [Neodatis T] in
/-- What the two files hold. -/
def files (db : DBClient T) : List T × List T :=
  (db.currentODB.committed, db.historyODB.committed)

/-! ### The files after a cut -/

section Files

variable {db : DBClient T} {i o : Instance T} {u : UUID}

omit [Neodatis T] in
theorem files_save_none (h : db.find (uuid i.value) = none) (k : ℕ) :
    files (run DBClient.exec db ((db.saveSteps i).take k)) = files db ∨
    files (run DBClient.exec db ((db.saveSteps i).take k)) =
      ((files (db.save i)).1, (files db).2) ∨
    files (run DBClient.exec db ((db.saveSteps i).take k)) = files (db.save i) := by
  have hs : db.saveSteps i = [.store .current i, .commit .current, .store .history i,
      .commit .history] := by simp only [DBClient.saveSteps, h]
  rw [DBClient.save, hs]
  rcases k with _ | _ | _ | _ | k
  · exact Or.inl rfl
  · exact Or.inl rfl
  · exact Or.inr (Or.inl rfl)
  · exact Or.inr (Or.inl rfl)
  · exact Or.inr (Or.inr (by rw [List.take_of_length_le (by simp)]))

omit [Neodatis T] in
theorem files_save_new (h : db.find (uuid i.value) = some o) (he : (o.value == i.value) = false)
    (k : ℕ) :
    files (run DBClient.exec db ((db.saveSteps i).take k)) = files db ∨
    files (run DBClient.exec db ((db.saveSteps i).take k)) =
      ((files db).1, (files (db.save i)).2) ∨
    files (run DBClient.exec db ((db.saveSteps i).take k)) = files (db.save i) := by
  have hs : db.saveSteps i = [.store .history o, .commit .history, .store .current i,
      .delete .current o, .commit .current] := by
    simp only [DBClient.saveSteps, h, bne, he]; rfl
  rw [DBClient.save, hs]
  rcases k with _ | _ | _ | _ | _ | k
  · exact Or.inl rfl
  · exact Or.inl rfl
  · exact Or.inr (Or.inl rfl)
  · exact Or.inr (Or.inl rfl)
  · exact Or.inr (Or.inl rfl)
  · exact Or.inr (Or.inr (by rw [List.take_of_length_le (by simp)]))

theorem files_remove (h : db.find u = some o) (k : ℕ) :
    files (run DBClient.exec db ((db.removeSteps u).take k)) = files db ∨
    files (run DBClient.exec db ((db.removeSteps u).take k)) =
      ((files db).1, (files (db.remove u)).2) ∨
    files (run DBClient.exec db ((db.removeSteps u).take k)) = files (db.remove u) := by
  rw [DBClient.remove, removeSteps_some h]
  by_cases hr : Recorded db o
  · simp only [if_pos hr]
    rcases k with _ | _ | k
    · exact Or.inl rfl
    · exact Or.inl rfl
    · exact Or.inr (Or.inr (by rw [List.take_of_length_le (by simp)]))
  · simp only [if_neg hr]
    rcases k with _ | _ | _ | _ | k
    · exact Or.inl rfl
    · exact Or.inl rfl
    · exact Or.inr (Or.inl rfl)
    · exact Or.inr (Or.inl rfl)
    · exact Or.inr (Or.inr (by rw [List.take_of_length_le (by simp)]))

end Files

/-! ### Nothing committed is lost -/

/-- From the files `f` to the files `g` no value is lost: a current one stays or is in the history
up to equality, and the history only grows. -/
structure Kept (f g : List T × List T) : Prop where
  current : ∀ v ∈ f.1, v ∈ g.1 ∨ ∃ w ∈ g.2, (w == v) = true
  history : ∀ v ∈ f.2, v ∈ g.2

omit [Persistent T] [Neodatis T] in
theorem Kept.refl (f : List T × List T) : Kept f f := ⟨fun _ h => Or.inl h, fun _ h => h⟩

section Kept

variable {db : DBClient T} {i o : Instance T} {u : UUID}

omit [BEq T] [Neodatis T] in
theorem mem_current_files (hw : WF db) {v : T} :
    v ∈ (files db).1 ↔ ∃ o ∈ db.currentODB.objects, o.value = v := by
  rw [files, hw.currentSettled, List.mem_map]

omit [BEq T] [Neodatis T] in
theorem mem_history_files (hw : WF db) {v : T} :
    v ∈ (files db).2 ↔ ∃ o ∈ db.historyODB.objects, o.value = v := by
  rw [files, hw.historySettled, List.mem_map]

omit [BEq T] [Neodatis T] in
theorem history_subset_store (hw : WF db) (hi : db.heap[i.ref]? = some i.value) :
    ∀ v ∈ (files db).2, v ∈ (db.historyODB.store i).objects.map (·.value) := by
  intro v hv
  obtain ⟨o, ho, rfl⟩ := (mem_history_files hw).mp hv
  exact List.mem_map_of_mem ((Odb.mem_store hw.history hi).mpr (Or.inl ho))

omit [Neodatis T] in
/-- A first save: both files only grow. -/
theorem kept_save_none (hw : WF db) (hi : db.heap[i.ref]? = some i.value)
    (h : db.find (uuid i.value) = none) :
    (∀ v ∈ (files db).1, v ∈ (files (db.save i)).1) ∧
      ∀ v ∈ (files db).2, v ∈ (files (db.save i)).2 := by
  rw [save_none h]
  refine ⟨fun v hv => ?_, history_subset_store hw hi⟩
  obtain ⟨o, ho, rfl⟩ := (mem_current_files hw).mp hv
  exact List.mem_map_of_mem ((Odb.mem_store hw.current hi).mpr (Or.inl ho))

omit [Neodatis T] in
/-- A replacing save moves the old object to the history. -/
theorem kept_save_new [ReflBEq T] (hw : WF db) (hi : db.heap[i.ref]? = some i.value)
    (h : db.find (uuid i.value) = some o) (he : (o.value == i.value) = false) :
    Kept (files db) (files (db.save i)) := by
  have ho := find_onHeap hw h
  rw [save_new h he]
  refine ⟨fun v hv => ?_, history_subset_store hw ho⟩
  obtain ⟨a, ha, rfl⟩ := (mem_current_files hw).mp hv
  by_cases hr : a.ref = o.ref
  · rw [hw.current.eq_of_ref ho ha hr]
    exact Or.inr ⟨o.value, List.mem_map_of_mem ((Odb.mem_store hw.history ho).mpr (Or.inr rfl)),
      BEq.rfl⟩
  · have hs := (Odb.mem_store hw.current hi).mpr (Or.inl ha)
    exact Or.inl (List.mem_map_of_mem (Odb.mem_delete.mpr ⟨hs, hr⟩))

/-- A removal leaves the object, or an equal one, in the history. -/
theorem kept_remove [ReflBEq T] (hw : WF db) (h : db.find u = some o) :
    Kept (files db) (files (db.remove u)) := by
  have ho := find_onHeap hw h
  have hgrow : ∀ v ∈ (files db).2, v ∈ (files (db.remove u)).2 := by
    intro v hv
    rw [remove_some h]
    by_cases hr : Recorded db o
    · simp only [files, if_pos hr]; exact hv
    · simp only [files, if_neg hr]; exact history_subset_store hw ho v hv
  refine ⟨fun v hv => ?_, hgrow⟩
  obtain ⟨a, ha, rfl⟩ := (mem_current_files hw).mp hv
  by_cases hao : a.ref = o.ref
  · rw [hw.current.eq_of_ref ho ha hao]
    right
    by_cases hr : Recorded db o
    · -- the head of the history is an equal record, which stays
      obtain ⟨r, hr1, hr2⟩ := hr
      have hm := (Neodatis.perm _).mem_iff.mp (List.mem_of_head? hr1)
      have hf : r.value ∈ (files db).2 :=
        (mem_history_files hw).mpr ⟨r, (mem_findByUUID.mp hm).1, rfl⟩
      exact ⟨r.value, hgrow _ hf, hr2⟩
    · rw [remove_some h]
      simp only [files, if_neg hr]
      exact ⟨o.value, List.mem_map_of_mem ((Odb.mem_store hw.history ho).mpr (Or.inr rfl)),
        BEq.rfl⟩
  · rw [remove_some h]
    exact Or.inl (List.mem_map_of_mem (Odb.mem_delete.mpr ⟨ha, hao⟩))

omit [Persistent T] [Neodatis T] in
/-- Where the history is committed first, every cut keeps what the whole operation keeps. -/
theorem Kept.cut_history_first {f g m : List T × List T} (h : Kept f g)
    (hm : m = f ∨ m = (f.1, g.2) ∨ m = g) : Kept f m := by
  rcases hm with rfl | rfl | rfl
  · exact Kept.refl _
  · exact ⟨fun _ hv => Or.inl hv, h.history⟩
  · exact h

omit [BEq T] [Neodatis T] in
theorem durable_of_files {db db' : DBClient T} (hd : Durable db)
    (h : (files db').1 = (files db).1) : Durable db' := by
  intro u
  show ((files db').1.filter _).length ≤ 1
  rw [h]; exact hd u

omit [Neodatis T] in
/-- A cut of a save. -/
theorem cut_save [ReflBEq T] (hw : WF db) (hi : db.heap[i.ref]? = some i.value) (k : ℕ) :
    Kept (files db) (files (run DBClient.exec db ((db.saveSteps i).take k))) ∧
      Durable (run DBClient.exec db ((db.saveSteps i).take k)) := by
  have hd := (wf_save hw hi).durable
  rcases h : db.find (uuid i.value) with _ | o
  · obtain ⟨h1, h2⟩ := kept_save_none hw hi h
    rcases files_save_none h k with hm | hm | hm
    · exact ⟨by rw [hm]; exact Kept.refl _, durable_of_files hw.durable (by rw [hm])⟩
    · exact ⟨by rw [hm]; exact ⟨fun v hv => Or.inl (h1 v hv), fun v hv => hv⟩,
        durable_of_files hd (by rw [hm])⟩
    · exact ⟨by rw [hm]; exact ⟨fun v hv => Or.inl (h1 v hv), h2⟩,
        durable_of_files hd (by rw [hm])⟩
  · rcases he : o.value == i.value with _ | _
    · have hm := files_save_new h he k
      refine ⟨(kept_save_new hw hi h he).cut_history_first hm, ?_⟩
      rcases hm with hm | hm | hm
      · exact durable_of_files hw.durable (by rw [hm])
      · exact durable_of_files hw.durable (by rw [hm])
      · exact durable_of_files hd (by rw [hm])
    · have hs : db.saveSteps i = [] := by simp [DBClient.saveSteps, h, bne, he]
      rw [hs, List.take_nil]
      exact ⟨Kept.refl _, hw.durable⟩

/-- A cut of a removal. -/
theorem cut_remove [ReflBEq T] (hw : WF db) (u : UUID) (k : ℕ) :
    Kept (files db) (files (run DBClient.exec db ((db.removeSteps u).take k))) ∧
      Durable (run DBClient.exec db ((db.removeSteps u).take k)) := by
  have hd := (wf_remove hw u).durable
  rcases h : db.find u with _ | o
  · rw [removeSteps_none h, List.take_nil]
    exact ⟨Kept.refl _, hw.durable⟩
  · have hm := files_remove h k
    refine ⟨(kept_remove hw h).cut_history_first hm, ?_⟩
    rcases hm with hm | hm | hm
    · exact durable_of_files hw.durable (by rw [hm])
    · exact durable_of_files hw.durable (by rw [hm])
    · exact durable_of_files hd (by rw [hm])

/-- **No cut of an operation loses a committed value**, and the client can be opened again. -/
theorem cut_op [ReflBEq T] (hw : WF db) (op : Op T) (k : ℕ) :
    Kept (files db) (files (cutAt db op k)) ∧ Durable (cutAt db op k) := by
  have hnil : Kept (files db) (files (run DBClient.exec db ([].take k))) ∧
      Durable (run DBClient.exec db ([].take k)) := by
    rw [List.take_nil]; exact ⟨Kept.refl _, hw.durable⟩
  cases op with
  | save ref =>
    rcases h : db.deref ref with _ | i
    · simp only [cutAt, DBClient.opSteps, h]; exact hnil
    · simp only [cutAt, DBClient.opSteps, h]; exact cut_save hw (onHeap_of_deref h) k
  | removeObj ref =>
    rcases h : db.deref ref with _ | i
    · simp only [cutAt, DBClient.opSteps, h]; exact hnil
    · simp only [cutAt, DBClient.opSteps, h]; exact cut_remove hw _ k
  | remove u => exact cut_remove hw u k
  | create v => exact hnil
  | reconnect => exact hnil

end Kept

/-! ### Runs -/

section Runs

variable {db : DBClient T}

/-- A completed operation is the cut after all of its calls. -/
theorem files_step (db : DBClient T) (op : Op T) :
    files (db.step op) = files (cutAt db op (db.opSteps op).length) := by
  unfold cutAt
  rw [List.take_length]
  cases op with
  | save ref =>
    rcases h : db.deref ref with _ | i <;> simp only [DBClient.step, DBClient.opSteps, h] <;> rfl
  | removeObj ref =>
    rcases h : db.deref ref with _ | i <;> simp only [DBClient.step, DBClient.opSteps, h] <;> rfl
  | _ => rfl

theorem kept_step [ReflBEq T] (hw : WF db) (e : Ev T) :
    Kept (files db) (files (step db e)) ∧ WF (step db e) := by
  cases e with
  | op op =>
    refine ⟨?_, wf_step hw op⟩
    show Kept (files db) (files (db.step op))
    rw [files_step]
    exact (cut_op hw op _).1
  | cut op k =>
    obtain ⟨h1, h2⟩ := cut_op hw op k
    exact ⟨h1, wf_reconnect h2⟩

/-- The value is in the current file, or an equal one is in the history file. -/
def Present (db : DBClient T) (v : T) : Prop :=
  v ∈ (files db).1 ∨ ∃ w ∈ (files db).2, (w == v) = true

theorem present_step [ReflBEq T] (hw : WF db) {v : T} (h : Present db v) (e : Ev T) :
    Present (step db e) v := by
  obtain ⟨⟨h1, h2⟩, -⟩ := kept_step hw e
  rcases h with h | ⟨w, hm, hv⟩
  · exact h1 v h
  · exact Or.inr ⟨w, h2 w hm, hv⟩

/-- The client after a run with interruptions, from two empty databases. -/
abbrev after (evs : List (Ev T)) : DBClient T := run step DBClient.init evs

theorem wf_after [ReflBEq T] (evs : List (Ev T)) : WF (after evs) :=
  run_invariant (P := WF) (fun _ e h => (kept_step h e).2) evs _ wf_init

/-- **No version is lost.** A value that the current file held at some point of a run is at every
later point, up to equality, an object of the current database or of the history. -/
theorem no_version_lost [ReflBEq T] (pre post : List (Ev T)) (v : T)
    (hv : v ∈ (after pre).currentODB.committed) :
    ∃ o, (o ∈ classQueryCollection (after (pre ++ post)).currentODB ∨
      o ∈ classQueryCollection (after (pre ++ post)).historyODB) ∧ (o.value == v) = true := by
  have hp : WF (after (pre ++ post)) ∧ Present (after (pre ++ post)) v := by
    rw [after, run_append]
    refine run_invariant (P := fun s => WF s ∧ Present s v) ?_ post _ ⟨wf_after pre, Or.inl hv⟩
    exact fun s e ⟨hw, h⟩ => ⟨(kept_step hw e).2, present_step hw h e⟩
  obtain ⟨hw, h | ⟨w, hm, hwv⟩⟩ := hp
  · obtain ⟨o, ho, rfl⟩ := (mem_current_files hw).mp h
    exact ⟨o, Or.inl ho, BEq.rfl⟩
  · obtain ⟨o, ho, rfl⟩ := (mem_history_files hw).mp hm
    exact ⟨o, Or.inr ho, hwv⟩

/-- A port is saved; replacing it is cut off after the history is committed; then it is removed. -/
theorem no_version_lost_userPort :
    ∃ o, (o ∈ classQueryCollection (after (T := SvdUserPort) ([.op (.create ⟨1, ⟨0, 1⟩, 10⟩),
        .op (.save 0)] ++ [.op (.create ⟨2, ⟨0, 1⟩, 20⟩), .cut (.save 1) 2,
        .op (.remove ⟨0, 1⟩)])).currentODB ∨
      o ∈ classQueryCollection (after (T := SvdUserPort) ([.op (.create ⟨1, ⟨0, 1⟩, 10⟩),
        .op (.save 0)] ++ [.op (.create ⟨2, ⟨0, 1⟩, 20⟩), .cut (.save 1) 2,
        .op (.remove ⟨0, 1⟩)])).historyODB) ∧ (o.value == ⟨1, ⟨0, 1⟩, 10⟩) = true :=
  no_version_lost _ _ _ (List.mem_singleton.mpr rfl)

end Runs

end ServeD.Db.Crash
