import ServeD.Db.Refinement
import Mathlib.Data.List.Chain

/-! # The history of a uuid

`versions u ops` lists the values saved under `u` by the operations `ops`, each with the number of
the client session that saved it. The history database gets the first version when it is inserted,
and every version again, or for the first time, when it is superseded: the object looked up in the
current database is stored in the history, which overwrites in place only an object the open session
knows. The first version is such an object exactly as long as the session that inserted it lasts
(`Tracks.shared`), so its record is doubled when the second version is saved in a later session
(`recorded`).

`HistoryLaw` is what the history should be, and `historyLaw_iff` says when it is. -/

namespace ServeD.Db.History

open ServeD.Lib.ObjectStore ServeD.Lib.Runs ServeD.Api.Records ServeD.Db.Client ServeD.Db.Invariant
open ServeD.Db.Refinement
open ServeD.Api.Records.Persistent (uuid createdAt)

variable {T : Type} [Persistent T] [BEq T] [Neodatis T]

/-- The session after an operation. -/
def nextSession (n : ℕ) : Op T → ℕ
  | .reconnect => n + 1
  | _ => n

/-- The version of `u` that an operation saves, with the session. -/
def versionOf (u : UUID) (db : DBClient T) (n : ℕ) (op : Op T) : List (ℕ × T) :=
  match event db op with
  | some (.save v) => if uuid v = u then [(n, v)] else []
  | _ => []

/-- The versions of `u` saved by operations from the client `db` in session `n` on. -/
def versionsFrom (u : UUID) : DBClient T → ℕ → List (Op T) → List (ℕ × T)
  | _, _, [] => []
  | db, n, op :: ops =>
    versionOf u db n op ++ versionsFrom u (db.step op) (nextSession n op) ops

/-- The versions of `u` saved by `ops`, from two empty databases. -/
def versions (u : UUID) (ops : List (Op T)) : List (ℕ × T) := versionsFrom u DBClient.init 0 ops

/-- A run that saves versions of `u`, each different from the one before and created after it, and
does not remove them. -/
structure VersionRun (u : UUID) (ops : List (Op T)) : Prop where
  saved : versions u ops ≠ []
  differ : ((versions u ops).map (·.2)).IsChain fun a b => (a == b) = false
  created : ((versions u ops).map (·.2)).Pairwise fun a b => createdAt a < createdAt b
  kept : Meets DBClient.step (fun db op => event db op ≠ some (.remove u)) DBClient.init ops

/-- The superseded versions, newest first; the only version if there is one. -/
def superseded : List T → List T
  | [v] => [v]
  | vs => vs.dropLast.reverse

/-- **The history law**: the history holds every superseded version once, newest first, and after a
removal every version. -/
def HistoryLaw (u : UUID) (ops : List (Op T)) : Prop :=
  ((after ops).historyFor u).map (·.value) = superseded ((versions u ops).map (·.2)) ∧
    (((after ops).remove u).historyFor u).map (·.value) = ((versions u ops).map (·.2)).reverse

/-- The first two versions, if there are two, were saved in one session. -/
def SavedTogether : List (ℕ × T) → Prop
  | (k₁, _) :: (k₂, _) :: _ => k₁ = k₂
  | _ => True

/-! ### The versions of a longer run -/

theorem versionsFrom_append (u : UUID) : ∀ (ops ops' : List (Op T)) (db : DBClient T) (n : ℕ),
    versionsFrom u db n (ops ++ ops') = versionsFrom u db n ops ++
      versionsFrom u (run DBClient.step db ops) (ops.foldl nextSession n) ops'
  | [], _, _, _ => rfl
  | op :: ops, ops', db, n => by
    simp only [List.cons_append, versionsFrom, versionsFrom_append u ops ops', List.append_assoc]
    rfl

/-- The session after `ops`. -/
def session (ops : List (Op T)) : ℕ := ops.foldl nextSession 0

theorem versions_concat (u : UUID) (ops : List (Op T)) (op : Op T) :
    versions u (ops ++ [op]) = versions u ops ++ versionOf u (after ops) (session ops) op := by
  unfold versions
  rw [versionsFrom_append]
  simp only [versionsFrom, List.append_nil]
  rfl

omit [Persistent T] [BEq T] [Neodatis T] in
theorem session_concat (ops : List (Op T)) (op : Op T) :
    session (ops ++ [op]) = nextSession (session ops) op := by
  unfold session; rw [List.foldl_append]; rfl

/-! ### What the databases hold of `u` -/

/-- The values of the history records of `u`, in storage order, after the versions `S`. -/
def recorded : List (ℕ × T) → List T
  | [] => []
  | [(_, v)] => [v]
  | (k₁, v₁) :: (k₂, v₂) :: S =>
    (if k₁ = k₂ then [v₁] else [v₁, v₁]) ++ (v₂ :: S.map (·.2)).dropLast

/-- In session `n`, after the versions `S` of `u`: the current database holds the last version, the
history what is `recorded`, and the only version is one object in both databases exactly in the
session that saved it. -/
structure Tracks (u : UUID) (db : DBClient T) (n : ℕ) (S : List (ℕ × T)) : Prop where
  current : (findByUUIDCollection db.currentODB u).map (·.value) =
    (S.map (·.2)).getLast?.toList
  history : (findByUUIDCollection db.historyODB u).map (·.value) = recorded S
  session : ∀ x ∈ S, x.1 ≤ n
  shared : ∀ k v o, S = [(k, v)] → db.find u = some o → (db.historyODB.Knows o ↔ k = n)

section Tracks

variable {u : UUID} {db : DBClient T} {n : ℕ} {S : List (ℕ × T)}

omit [BEq T] [Neodatis T] in
theorem tracks_init (u : UUID) : Tracks u (DBClient.init : DBClient T) 0 [] where
  current := rfl
  history := rfl
  session := by simp
  shared := by simp

omit [BEq T] [Neodatis T] in
theorem Tracks.find_none (h : Tracks u db n []) : db.find u = none := by
  have hc := h.current
  simp only [List.map_nil, List.getLast?_nil, Option.toList_none, List.map_eq_nil_iff] at hc
  exact find_eq_none.mpr hc

omit [BEq T] [Neodatis T] in
theorem Tracks.find_last (h : Tracks u db n S) (hS : S ≠ []) :
    ∃ o, db.find u = some o ∧ (S.map (·.2)).getLast? = some o.value := by
  have hc := h.current
  obtain ⟨v, hv⟩ : ∃ v, (S.map (·.2)).getLast? = some v :=
    ⟨_, List.getLast?_eq_some_getLast (by simpa using hS)⟩
  rw [hv] at hc
  obtain ⟨o, ho, rfl⟩ := List.map_eq_singleton_iff.mp hc
  exact ⟨o, by simp [DBClient.find, ho], hv⟩

omit [BEq T] [Neodatis T] in
/-- The history session knows an object of `u` that it finds among the records of `u`. -/
theorem knows_iff_mem (hw : WF db) {o : Instance T} (ho : db.heap[o.ref]? = some o.value)
    (hu : uuid o.value = u) :
    db.historyODB.Knows o ↔ o ∈ findByUUIDCollection db.historyODB u := by
  rw [Odb.knows_iff hw.history ho, mem_findByUUID]
  exact ⟨fun h => ⟨h, hu⟩, fun h => h.1⟩

/-- Operations on other uuids do not touch what is tracked. -/
theorem Tracks.other [ReflBEq T] (h : Tracks u db n S) (hw : WF db) {op : Op T}
    (hop : op ≠ .reconnect) (he : ∀ e, event db op = some e → e.key ≠ u) :
    Tracks u (db.step op) n S := by
  have hsame : findByUUIDCollection (db.step op).currentODB u =
      findByUUIDCollection db.currentODB u ∧
      findByUUIDCollection (db.step op).historyODB u = findByUUIDCollection db.historyODB u := by
    rcases hev : event db op with _ | e
    · cases op with
      | save ref =>
        have hd : db.deref ref = none := Option.map_eq_none_iff.mp hev
        simp only [DBClient.step, hd]
        exact ⟨rfl, rfl⟩
      | removeObj ref =>
        have hd : db.deref ref = none := Option.map_eq_none_iff.mp hev
        simp only [DBClient.step, hd]
        exact ⟨rfl, rfl⟩
      | create v => exact ⟨rfl, rfl⟩
      | remove w => cases hev
      | reconnect => exact absurd rfl hop
    · exact frame_step hw hev (he e hev)
  obtain ⟨hc, hh⟩ := hsame
  refine ⟨by rw [hc]; exact h.current, by rw [hh]; exact h.history, h.session, ?_⟩
  intro k v o hS ho
  have hw' := wf_step hw op
  have ho' : db.find u = some o := by
    rw [← ho]; simp only [DBClient.find, hc]
  rw [knows_iff_mem hw' (find_onHeap hw' ho) (find_mem ho).2, hh,
    ← knows_iff_mem hw (find_onHeap hw ho') (find_mem ho').2]
  exact h.shared k v o hS ho'

omit [BEq T] [Neodatis T] in
/-- Opening the client again keeps the values and separates the objects of the two databases. -/
theorem Tracks.reconnect (h : Tracks u db n S) (hw : WF db) :
    Tracks u db.reconnect (n + 1) S := by
  refine ⟨(values_reopen hw.currentSettled _ u).trans h.current,
    (values_reopen hw.historySettled _ u).trans h.history, ?_, ?_⟩
  · intro x hx
    have := h.session x hx
    omega
  · intro k v o hS ho
    have hk := h.session (k, v) (by simp [hS])
    constructor
    · intro hkn
      -- an address of the current database is below those of the history
      have h1 := ref_lt_of_mem_load (find_mem ho).1
      obtain ⟨o', ho', hr⟩ := List.mem_map.mp hkn
      have h2 := (mem_load.mp ho').1
      rw [List.length_append] at h2
      omega
    · intro he
      simp only at hk
      omega

omit [Persistent T] [BEq T] [Neodatis T] in
theorem recorded_concat {a b : ℕ × T} {v : T} (hv : ((a :: b :: S).map (·.2)).getLast? = some v)
    (x : ℕ × T) : recorded (a :: b :: S ++ [x]) = recorded (a :: b :: S) ++ [v] := by
  have hl : (b.2 :: S.map (·.2)).getLast? = some v := by simpa using hv
  have h := List.dropLast_append_getLast? v hl
  simp only [List.cons_append, recorded, List.map_append, List.map_cons, List.map_nil]
  rw [List.append_assoc, h, ← List.cons_append, List.dropLast_concat]

omit [Persistent T] [BEq T] [Neodatis T] in
theorem mem_recorded {a b : ℕ × T} {v : T} (h : v ∈ recorded (a :: b :: S)) :
    v ∈ ((a :: b :: S).map (·.2)).dropLast := by
  simp only [recorded, List.mem_append] at h
  rw [List.map_cons, List.map_cons, List.dropLast_cons_cons, List.mem_cons]
  rcases h with h | h
  · left
    split_ifs at h <;> simpa using h
  · exact Or.inr h

omit [BEq T] [Neodatis T] in
/-- With dates increasing, the last version is not among the ones before it. -/
theorem not_mem_dropLast {vs : List T} (hc : vs.Pairwise fun a b => createdAt a < createdAt b)
    {v : T} (hv : vs.getLast? = some v) : v ∉ vs.dropLast := by
  intro hm
  rw [← List.dropLast_append_getLast? v hv, List.pairwise_append] at hc
  have := hc.2.2 v hm v (by simp)
  omega

omit [BEq T] [Neodatis T] in
/-- From the second version on, the object superseded is new to the history. -/
theorem Tracks.not_knows {a b : ℕ × T} (h : Tracks u db n (a :: b :: S)) (hw : WF db)
    (hc : ((a :: b :: S).map (·.2)).Pairwise fun a b => createdAt a < createdAt b)
    {o : Instance T} (ho : db.find u = some o)
    (hv : ((a :: b :: S).map (·.2)).getLast? = some o.value) : ¬ db.historyODB.Knows o := by
  rw [knows_iff_mem hw (find_onHeap hw ho) (find_mem ho).2]
  intro hm
  have hr : o.value ∈ recorded (a :: b :: S) := by
    rw [← h.history]; exact List.mem_map_of_mem hm
  exact not_mem_dropLast hc hv (mem_recorded hr)

omit [Neodatis T] in
/-- **A save of `u`** is tracked: the first version is stored in both databases, and a superseded
one is added to the history unless its session knows it. -/
theorem Tracks.save [ReflBEq T] (h : Tracks u db n S) (hw : WF db) {i : Instance T}
    (hi : db.heap[i.ref]? = some i.value) (hu : uuid i.value = u)
    (hd : ∀ w, (S.map (·.2)).getLast? = some w → (w == i.value) = false)
    (hc : (S.map (·.2)).Pairwise fun a b => createdAt a < createdAt b) :
    Tracks u (db.save i) n (S ++ [(n, i.value)]) := by
  have hw' := wf_save hw hi
  have hi' : (db.save i).heap[i.ref]? = some i.value := by rw [heap_save]; exact hi
  have hlast : ((S ++ [(n, i.value)]).map (·.2)).getLast? = some i.value := by simp
  have hsess : ∀ x ∈ S ++ [(n, i.value)], x.1 ≤ n := by
    intro x hx
    rcases List.mem_append.mp hx with hx | hx
    · exact h.session x hx
    · rw [List.mem_singleton.mp hx]
  subst hu
  -- the first version, the second one, and the later ones
  rcases S with _ | ⟨⟨k, v⟩, _ | ⟨b, S⟩⟩
  · have hf := h.find_none
    have hcur := current_save_none hw hi hf
    have hnil : findByUUIDCollection db.historyODB (uuid i.value) = [] :=
      List.map_eq_nil_iff.mp h.history
    have hn : ¬ db.historyODB.Knows i := by
      rw [knows_iff_mem hw hi rfl, hnil]; simp
    have hhis := history_save_none hw hi hf
    rw [hnil, if_neg hn, List.nil_append] at hhis
    refine ⟨by rw [hcur, hlast]; rfl, by rw [hhis]; rfl, hsess, ?_⟩
    intro k v o hS ho
    cases hS
    rw [find_eq_some hw', hcur] at ho
    cases ho
    rw [knows_iff_mem hw' hi' rfl, hhis]
    simp
  · obtain ⟨o, ho, hv⟩ := h.find_last (by simp)
    have he := hd _ hv
    have hval : v = o.value := by simpa using hv
    have hhis := history_save_new hw ho he
    refine ⟨by rw [current_save_new hw hi ho he, hlast]; rfl, ?_, hsess, by simp⟩
    rw [hhis, List.map_append, h.history]
    have hsh := h.shared k v o rfl ho
    by_cases hk : k = n
    · simp [recorded, hk, hsh]
    · simp [recorded, hk, hsh, hval]
  · obtain ⟨o, ho, hv⟩ := h.find_last (by simp)
    have he := hd _ hv
    have hn := h.not_knows hw hc ho hv
    have hhis := history_save_new hw ho he
    refine ⟨by rw [current_save_new hw hi ho he, hlast]; rfl, ?_, hsess, by simp⟩
    rw [hhis, if_neg hn, List.map_append, h.history, recorded_concat hv]
    rfl

end Tracks

/-! ### Along a run -/

section Run

variable {u : UUID} {ops : List (Op T)}

omit [BEq T] [Neodatis T] in
theorem versionOf_other {db : DBClient T} {n : ℕ} {op : Op T}
    (he : ∀ e, event db op = some e → e.key ≠ u) : versionOf u db n op = [] := by
  unfold versionOf
  split
  · next v hv => rw [if_neg]; exact he _ hv
  · rfl

omit [BEq T] [Neodatis T] in
theorem versionOf_save {db : DBClient T} {n : ℕ} {op : Op T} {v : T}
    (he : event db op = some (.save v)) (hu : uuid v = u) : versionOf u db n op = [(n, v)] := by
  unfold versionOf; rw [he]; exact if_pos hu

theorem tracks_step [ReflBEq T] {op : Op T}
    (h : Tracks u (after ops) (session ops) (versions u ops))
    (hd : ((versions u (ops ++ [op])).map (·.2)).IsChain fun a b => (a == b) = false)
    (hc : ((versions u (ops ++ [op])).map (·.2)).Pairwise fun a b => createdAt a < createdAt b)
    (hk : event (after ops) op ≠ some (.remove u)) :
    Tracks u (after (ops ++ [op])) (session (ops ++ [op])) (versions u (ops ++ [op])) := by
  have hw : WF (after ops) := wf_run ops
  rw [versions_concat] at hd hc ⊢
  rw [session_concat, after, run_concat]
  by_cases hrec : op = .reconnect
  · subst hrec
    have hnil : versionOf u (after ops) (session ops) .reconnect = [] :=
      versionOf_other fun e he => by cases he
    rw [hnil, List.append_nil]
    exact h.reconnect hw
  have hses : nextSession (session ops) op = session ops := by cases op <;> simp_all [nextSession]
  rw [hses]
  by_cases hv : ∃ v, event (after ops) op = some (.save v) ∧ uuid v = u
  · obtain ⟨v, hv, hu⟩ := hv
    rw [versionOf_save hv hu] at hd hc ⊢
    rw [List.map_append] at hd hc
    cases op with
    | save ref =>
      obtain ⟨i, hi, he⟩ := Option.map_eq_some_iff.mp hv
      cases he
      have hstep : (after ops).step (.save ref) = (after ops).save i := by
        simp only [DBClient.step, hi]; rfl
      rw [hstep]
      refine h.save hw (onHeap_of_deref hi) hu (fun w hw' => ?_) (List.pairwise_append.mp hc).1
      exact (List.isChain_append.mp hd).2.2 w hw' i.value (by simp)
    | removeObj ref => simp [event] at hv
    | _ => simp [event] at hv
  · have he : ∀ e, event (after ops) op = some e → e.key ≠ u := by
      intro e he hku
      cases e with
      | save v => exact hv ⟨v, he, hku⟩
      | remove w => exact hk (by rw [he]; exact congrArg _ (congrArg _ hku))
    rw [versionOf_other he, List.append_nil]
    exact h.other hw hrec he

/-- **Along a run that saves versions of `u`, the databases hold what is tracked.** -/
theorem tracks_run [ReflBEq T]
    (hd : ((versions u ops).map (·.2)).IsChain fun a b => (a == b) = false)
    (hc : ((versions u ops).map (·.2)).Pairwise fun a b => createdAt a < createdAt b)
    (hk : Meets DBClient.step (fun db op => event db op ≠ some (.remove u)) DBClient.init ops) :
    Tracks u (after ops) (session ops) (versions u ops) := by
  induction ops using List.reverseRecOn with
  | nil => exact tracks_init u
  | append_singleton ops op ih =>
    have hd' := hd
    have hc' := hc
    rw [versions_concat, List.map_append] at hd' hc'
    obtain ⟨hk1, hk2⟩ := (meets_concat ops op _).mp hk
    exact tracks_step (ih (List.isChain_append.mp hd').1 (List.pairwise_append.mp hc').1 hk1)
      hd hc hk2

end Run

/-! ### The history law -/

section Law

omit [BEq T] [Neodatis T] in
theorem eq_of_createdAt {vs : List T} (hc : vs.Pairwise fun a b => createdAt a < createdAt b)
    {a b : T} (ha : a ∈ vs) (hb : b ∈ vs) (he : createdAt a = createdAt b) : a = b := by
  by_contra hne
  have hp : vs.Pairwise fun a b => createdAt a ≠ createdAt b := hc.imp fun h => ne_of_lt h
  have hsymm : Std.Symm fun a b : T => createdAt a ≠ createdAt b := ⟨fun _ _ h => h.symm⟩
  exact hp.forall ha hb hne he

omit [BEq T] in
/-- Records of versions with increasing dates are listed newest first. -/
theorem orderByDesc_eq {vs : List T} (hc : vs.Pairwise fun a b => createdAt a < createdAt b)
    {l : List (Instance T)} (hl : l.map (·.value) = vs) :
    (Neodatis.orderByDesc l).map (·.value) = vs.reverse := by
  have hperm : ((Neodatis.orderByDesc l).map (·.value)).Perm vs.reverse := by
    have h := (Neodatis.perm l).map (·.value)
    rw [hl] at h
    exact h.trans vs.reverse_perm.symm
  have hsorted : ((Neodatis.orderByDesc l).map (·.value)).Pairwise
      fun a b => createdAt b ≤ createdAt a := List.pairwise_map.mpr (Neodatis.sorted l)
  have hrev : vs.reverse.Pairwise fun a b => createdAt b ≤ createdAt a :=
    List.pairwise_reverse.mpr (hc.imp le_of_lt)
  refine List.Perm.eq_of_pairwise ?_ hsorted hrev hperm
  intro a b ha hb hab hba
  exact eq_of_createdAt hc (List.mem_reverse.mp (hperm.mem_iff.mp ha)) (List.mem_reverse.mp hb)
    (le_antisymm hba hab)

variable {u : UUID} {db : DBClient T} {n : ℕ} {S : List (ℕ × T)}

/-- One version: it is in the history from the start, and a removal finds it there. -/
theorem Tracks.law_one [ReflBEq T] {k : ℕ} {v : T} (h : Tracks u db n [(k, v)]) :
    (db.historyFor u).map (·.value) = [v] ∧ ((db.remove u).historyFor u).map (·.value) = [v] := by
  have hv : [v].Pairwise fun a b => createdAt a < createdAt b := by simp
  have hone : (db.historyFor u).map (·.value) = [v] := orderByDesc_eq hv h.history
  obtain ⟨o, ho, hlast⟩ := h.find_last (by simp)
  have hov : v = o.value := by simpa using hlast
  have hrec : Recorded db o := by
    obtain ⟨r, hr, hrv⟩ := List.map_eq_singleton_iff.mp hone
    refine ⟨r, ?_, by rw [hrv, hov]; exact BEq.rfl⟩
    rw [(find_mem ho).2]
    show (db.historyFor u).head? = some r
    rw [hr]; rfl
  refine ⟨hone, ?_⟩
  have hsame : (db.remove u).historyODB = db.historyODB := by
    rw [remove_some ho]; exact if_pos hrec
  unfold DBClient.historyFor
  rw [hsame]
  exact hone

/-- Two or more versions, the first two of one session. -/
theorem Tracks.law_together {a b : ℕ × T} (h : Tracks u db n (a :: b :: S)) (hw : WF db)
    (hd : ((a :: b :: S).map (·.2)).IsChain fun a b => (a == b) = false)
    (hc : ((a :: b :: S).map (·.2)).Pairwise fun a b => createdAt a < createdAt b)
    (hab : a.1 = b.1) :
    (db.historyFor u).map (·.value) = ((a :: b :: S).map (·.2)).dropLast.reverse ∧
      ((db.remove u).historyFor u).map (·.value) = ((a :: b :: S).map (·.2)).reverse := by
  set vs := (a :: b :: S).map (·.2) with hvs
  have hrec : recorded (a :: b :: S) = vs.dropLast := by
    simp [hvs, recorded, hab]
  have hold : (db.historyFor u).map (·.value) = vs.dropLast.reverse :=
    orderByDesc_eq (hc.sublist (List.dropLast_sublist vs)) (h.history.trans hrec)
  refine ⟨hold, ?_⟩
  obtain ⟨o, ho, hlast⟩ := h.find_last (by simp)
  have hsplit : vs.dropLast ++ [o.value] = vs := List.dropLast_append_getLast? _ hlast
  -- the newest record is the version before the last, which differs from it
  have hnr : ¬ Recorded db o := by
    rintro ⟨r, hr, hro⟩
    rw [(find_mem ho).2] at hr
    have hhead : (vs.dropLast.reverse).head? = some r.value := by
      rw [← hold, List.head?_map]
      show Option.map _ (findByUUIDOrderedCollection db.historyODB u).head? = _
      rw [hr]; rfl
    rw [List.head?_reverse] at hhead
    rw [← hsplit] at hd
    have := (List.isChain_append.mp hd).2.2 r.value hhead o.value (by simp)
    rw [this] at hro
    cases hro
  have hnk := h.not_knows hw hc ho hlast
  have hhis := history_remove hw ho
  rw [if_neg (by rintro (h | h); exacts [hnr h, hnk h])] at hhis
  refine orderByDesc_eq hc ?_
  rw [hhis, List.map_append, h.history, hrec]
  exact hsplit

omit [BEq T] in
/-- Two or more versions, the second saved in a later session: the first is recorded twice. -/
theorem Tracks.not_law {a b : ℕ × T} (h : Tracks u db n (a :: b :: S)) (hab : a.1 ≠ b.1) :
    (db.historyFor u).map (·.value) ≠ ((a :: b :: S).map (·.2)).dropLast.reverse := by
  intro he
  have hl := congrArg List.length he
  have hp := (Neodatis.perm (findByUUIDCollection db.historyODB u)).length_eq
  have hr := congrArg List.length h.history
  simp only [List.length_map] at hl hr
  unfold DBClient.historyFor findByUUIDOrderedCollection at hl
  rw [hp, hr] at hl
  simp [recorded, hab] at hl

/-- **The history law holds exactly when the first two versions were saved in one session.** -/
theorem historyLaw_iff [ReflBEq T] {ops : List (Op T)} (h : VersionRun u ops) :
    HistoryLaw u ops ↔ SavedTogether (versions u ops) := by
  have hw : WF (after ops) := wf_run ops
  have ht := tracks_run h.differ h.created h.kept
  obtain ⟨hne, hd, hc, -⟩ := h
  unfold HistoryLaw
  rcases hS : versions u ops with _ | ⟨⟨k, v⟩, _ | ⟨⟨k', v'⟩, S⟩⟩
  · exact absurd hS hne
  · rw [hS] at ht
    exact iff_of_true ht.law_one trivial
  · rw [hS] at ht hd hc
    by_cases hk : k = k'
    · exact iff_of_true (ht.law_together hw hd hc hk) hk
    · exact iff_of_false (fun hl => ht.not_law hk hl.1) hk

end Law

/-! ### Two versions of a port -/

/-- Two versions saved in one session. -/
def oneSession : List (Op SvdUserPort) :=
  [.create ⟨1, ⟨0, 1⟩, 10⟩, .save 0, .create ⟨2, ⟨0, 1⟩, 20⟩, .save 1]

/-- The same with the client opened again in between; its two loaded objects are at the addresses
1 and 2. -/
def twoSessions : List (Op SvdUserPort) :=
  [.create ⟨1, ⟨0, 1⟩, 10⟩, .save 0, .reconnect, .create ⟨2, ⟨0, 1⟩, 20⟩, .save 3]

theorem versionRun_oneSession : VersionRun ⟨0, 1⟩ oneSession where
  saved := by decide
  differ := by decide
  created := by decide
  kept := by decide

theorem versionRun_twoSessions : VersionRun ⟨0, 1⟩ twoSessions where
  saved := by decide
  differ := by decide
  created := by decide
  kept := by decide

theorem historyLaw_oneSession : VersionRun ⟨0, 1⟩ oneSession ∧ HistoryLaw ⟨0, 1⟩ oneSession :=
  ⟨versionRun_oneSession, (historyLaw_iff versionRun_oneSession).mpr rfl⟩

/-- **The first version is recorded twice** when the client is opened again before the second. -/
theorem not_historyLaw_twoSessions :
    VersionRun ⟨0, 1⟩ twoSessions ∧ ¬ HistoryLaw ⟨0, 1⟩ twoSessions ∧
      ((after twoSessions).historyFor ⟨0, 1⟩).map (·.value) =
        [⟨1, ⟨0, 1⟩, 10⟩, ⟨1, ⟨0, 1⟩, 10⟩] := by
  have hh : ((after twoSessions).historyFor ⟨0, 1⟩).map (·.value) =
      [⟨1, ⟨0, 1⟩, 10⟩, ⟨1, ⟨0, 1⟩, 10⟩] := by decide
  refine ⟨versionRun_twoSessions, fun h => ?_, hh⟩
  have h1 := h.1
  rw [hh] at h1
  exact absurd h1 (by decide)

end ServeD.Db.History
