import ServeD.Managers.Git

/-! # Repositories and their directories

Each record of the git manager has a directory. As long as JGit and `rm_r` do their work, records
and directories are in one-to-one correspondence, and a removal takes away one directory only
(`OneToOne`), exactly when every repository is created in a directory that is not there yet and is
not inside another `.git` directory (`Apart`, `oneToOne_iff`). The manager checks the name, and
different names can lead to one directory (`a` and `/a`), or into another repository (`a` and
`a.git/b`). -/

namespace ServeD.Managers.GitDirectories

open ServeD.Lib.ObjectStore ServeD.Lib.Runs ServeD.Lib.ImmutableSets ServeD.Lib.Directories
open ServeD.Api.Records ServeD.Api.Keys
open ServeD.Db.Client ServeD.Db.Invariant ServeD.Managers.Git

variable {K : Type}

/-- The records of the database. -/
def records (db : DBClient (Repository K)) : List (Repository K) :=
  (classQueryCollection db.currentODB).map (·.value)

/-- The directory is called `….git`. -/
def IsGit (p : Path) : Prop := EndsIn ".git".toList p

instance (p : Path) : Decidable (IsGit p) := inferInstanceAs (Decidable (EndsIn _ p))

/-- JGit makes the directory and `rm_r` removes it. -/
def Works (out : Outside) : Prop := out.init = .returns ∧ out.removes = true

instance (out : Outside) : Decidable (Works out) := inferInstanceAs (Decidable (_ ∧ _))

section Laws

variable [DecidableEq K] [HashCode K] [Neodatis (Repository K)]

/-- Records and directories correspond, and a removal takes the directory of its own record and
leaves the others. -/
structure OneToOne (loc : String) (a : Actor K) : Prop where
  distinct : ∀ r ∈ records a.db, ∀ r' ∈ records a.db, r.uuid ≠ r'.uuid →
    repoLocation loc r.name ≠ repoLocation loc r'.name
  kept : ∀ r ∈ records a.db, repoLocation loc r.name ∈ a.dirs
  owned : ∀ p ∈ a.dirs, IsGit p → ∃ r ∈ records a.db, repoLocation loc r.name = p
  remove : ∀ r ∈ records a.db, ∀ out, Works out →
    repoLocation loc r.name ∉ (step loc a (.message (.removeRepository r.uuid) out)).dirs ∧
    ∀ r' ∈ records a.db, r'.uuid ≠ r.uuid →
      repoLocation loc r'.name ∈ (step loc a (.message (.removeRepository r.uuid) out)).dirs

/-- A message that `receive` has a case for, with JGit and `rm_r` at work and a uuid that is not in
use. -/
def Env (loc : String) (a : Actor K) : Event K → Prop
  | .message msg out => (handlers loc out a.toState msg).isSome = true ∧ Works out ∧
      a.db.find out.new.uuid = none
  | .stop => False

omit [DecidableEq K] [HashCode K] [Neodatis (Repository K)] in
/-- A repository is created in a directory that does not exist and does not lie in a
`.git` directory. -/
def Apart (loc : String) (a : Actor K) : Event K → Prop
  | .message (.createRepository name) _ => (∀ r ∈ records a.db, r.name ≠ name) →
      repoLocation loc name ∉ a.dirs ∧
      ∀ p, p <+: repoLocation loc name → p ≠ repoLocation loc name → ¬ IsGit p
  | _ => True

end Laws

/-! ### Records by name -/

/-- The uuids with the names. -/
def entries (db : DBClient (Repository K)) : List (UUID × String) :=
  (classQueryCollection db.currentODB).map fun o => (o.value.uuid, o.value.name)

section Entries

variable {db : DBClient (Repository K)} {u : UUID} {name : String}

theorem mem_entries : (u, name) ∈ entries db ↔ ∃ r ∈ records db, r.uuid = u ∧ r.name = name := by
  simp [entries, records]

/-- The query by name finds nothing. -/
theorem byName_eq_nil :
    (nativeQueryCollection db.currentODB fun r => r.name == name) = [] ↔
      ∀ r ∈ records db, r.name ≠ name := by
  rw [List.eq_nil_iff_forall_not_mem]
  constructor
  · rintro h r hr rfl
    obtain ⟨o, ho, rfl⟩ := List.mem_map.mp hr
    exact h o (Odb.mem_getObjects.mpr ⟨ho, beq_self_eq_true _⟩)
  · intro h o ho
    obtain ⟨ho, hname⟩ := Odb.mem_getObjects.mp ho
    exact h o.value (List.mem_map_of_mem ho) (eq_of_beq hname)

theorem mem_entries_of_mem {r : Repository K} (h : r ∈ records db) :
    (r.uuid, r.name) ∈ entries db :=
  mem_entries.mpr ⟨r, h, rfl, rfl⟩

theorem entry_of_find {o : Instance (Repository K)} (h : db.find u = some o) :
    (u, o.value.name) ∈ entries db := by
  obtain ⟨hm, hu⟩ := find_mem h
  have hu' : o.value.uuid = u := hu
  exact List.mem_map.mpr ⟨o, hm, by rw [hu']⟩

/-- A uuid has one record. -/
theorem find_of_entry (hw : WF db) (h : (u, name) ∈ entries db) :
    ∃ o, db.find u = some o ∧ o.value.name = name := by
  obtain ⟨o, ho, he⟩ := List.mem_map.mp h
  obtain ⟨rfl, rfl⟩ := Prod.mk.inj he
  rcases hf : db.find o.value.uuid with _ | o'
  · exact absurd ho (not_mem_of_find_none hf rfl)
  · exact ⟨o', rfl, by rw [eq_of_find hw hf ho rfl]⟩

theorem name_unique (hw : WF db) {name' : String} (h : (u, name) ∈ entries db)
    (h' : (u, name') ∈ entries db) : name = name' := by
  obtain ⟨o, hf, rfl⟩ := find_of_entry hw h
  obtain ⟨o', hf', rfl⟩ := find_of_entry hw h'
  rw [Option.some.inj (hf.symm.trans hf')]

variable [DecidableEq K] [HashCode K]

/-- The handler raises when JGit does. -/
theorem raises_createRepository (loc : String) (out : Outside) (s : State K) (name : String) :
    (createRepository loc out s name).raises = false ↔
      ((∀ r ∈ records s.db, r.name ≠ name) → out.init = .returns) := by
  unfold createRepository
  rcases hq : (nativeQueryCollection s.db.currentODB fun r => r.name == name) with _ | ⟨o, os⟩
  · have hnew := byName_eq_nil.mp hq
    rcases hi : out.init with _ | made
    · simp [gitInit, hi]
    · exact iff_of_false (by simp [gitInit, hi]) fun h => by cases h hnew
  · refine iff_of_true rfl fun hnew => ?_
    rw [byName_eq_nil.mpr hnew] at hq
    cases hq

theorem entries_saveNew {repo : Repository K} (hw : WF db) (h : db.find repo.uuid = none) :
    entries (db.saveNew repo) = entries db ++ [(repo.uuid, repo.name)] := by
  unfold entries classQueryCollection
  rw [objects_saveNew_none hw h, List.map_append]
  rfl

theorem mem_entries_remove [Neodatis (Repository K)] (hw : WF db) {e : UUID × String} :
    e ∈ entries (db.remove u) ↔ e ∈ entries db ∧ e.1 ≠ u := by
  unfold entries classQueryCollection
  rw [objects_remove hw]
  constructor
  · intro h
    obtain ⟨o, ho, rfl⟩ := List.mem_map.mp h
    obtain ⟨ho, hu⟩ := List.mem_filter.mp ho
    exact ⟨List.mem_map_of_mem ho, of_decide_eq_true hu⟩
  · rintro ⟨h, hu⟩
    obtain ⟨o, ho, rfl⟩ := List.mem_map.mp h
    exact List.mem_map.mpr ⟨o, List.mem_filter.mpr ⟨ho, decide_eq_true hu⟩, rfl⟩

/-- A new set of keys leaves uuid and name. -/
theorem mem_entries_update (hw : WF db) (o : Keys.KeyOp K) (now : ℤ) {e : UUID × String} :
    e ∈ entries (Keys.update db u o now) ↔ e ∈ entries db := by
  rcases hf : db.find u with _ | repo
  · simp only [Keys.update, Keys.withRepo, hf]
  simp only [Keys.update, Keys.withRepo, hf]
  set v : Repository K := { repo.value with
    authorizedKeys := Keys.KeyOp.apply repo.value.authorizedKeys o, createdAt := now } with hv
  obtain ⟨hm, hu⟩ := find_mem hf
  have hfv : db.find (Persistent.uuid v) = some repo := by
    have hvu : Persistent.uuid v = u := hu
    rw [hvu]; exact hf
  rcases he : repo.value == v with _ | _
  · unfold entries classQueryCollection
    rw [objects_saveNew_new hw hfv he, List.map_append, List.mem_append]
    constructor
    · rintro (h | h)
      · obtain ⟨i, hi, rfl⟩ := List.mem_map.mp h
        exact List.mem_map_of_mem (List.mem_filter.mp hi).1
      · rw [List.mem_singleton.mp h]
        exact List.mem_map.mpr ⟨repo, hm, rfl⟩
    · intro h
      obtain ⟨i, hi, rfl⟩ := List.mem_map.mp h
      by_cases hr : i.ref = repo.ref
      · right
        rw [hw.current.eq_of_ref (find_onHeap hw hf) hi hr]
        exact List.mem_singleton.mpr rfl
      · left
        exact List.mem_map.mpr ⟨i, List.mem_filter.mpr ⟨hi, by simpa using hr⟩, rfl⟩
  · rw [saveNew_same hfv he]
    rfl

end Entries

/-! ### Separate directories -/

/-- Each entry has its directory, each `.git` directory its entry, and no directory of an entry lies
in that of another. -/
structure Separate (loc : String) (es : List (UUID × String)) (dirs : List Path) : Prop where
  kept : ∀ e ∈ es, repoLocation loc e.2 ∈ dirs
  owned : ∀ p ∈ dirs, IsGit p → ∃ e ∈ es, repoLocation loc e.2 = p
  apart : ∀ e ∈ es, ∀ e' ∈ es, e.1 ≠ e'.1 → ¬ repoLocation loc e.2 <+: repoLocation loc e'.2

section Separate

variable {loc name : String} {es es' : List (UUID × String)} {dirs : List Path} {u : UUID}

theorem isGit_repoLocation (loc name : String) : IsGit (repoLocation loc name) := by
  unfold repoLocation IsGit
  rw [String.toList_append]
  exact endsIn_resolve (by decide) ⟨'g', by decide, by decide⟩ _

theorem Separate.congr (h : Separate loc es dirs) (he : ∀ e, e ∈ es' ↔ e ∈ es) :
    Separate loc es' dirs where
  kept := fun e hm => h.kept e ((he e).mp hm)
  owned := fun p hp hg => by
    obtain ⟨e, hm, hl⟩ := h.owned p hp hg
    exact ⟨e, (he e).mpr hm, hl⟩
  apart := fun e hm e' hm' => h.apart e ((he e).mp hm) e' ((he e').mp hm')

/-- **A new repository** keeps the directories separate exactly when its own is new and does not lie
in a `.git` directory. -/
theorem separate_create (h : Separate loc es dirs) (hc : Closed dirs) (hu : ∀ e ∈ es, e.1 ≠ u) :
    Separate loc (es ++ [(u, name)]) (mkdirs dirs (repoLocation loc name)) ↔
      repoLocation loc name ∉ dirs ∧
      ∀ p, p <+: repoLocation loc name → p ≠ repoLocation loc name → ¬ IsGit p := by
  have hnew : (u, name) ∈ es ++ [(u, name)] := by simp
  constructor
  · intro h'
    refine ⟨fun hmem => ?_, fun p hp hne hg => ?_⟩
    · -- the directory exists, so it has an entry
      obtain ⟨e, he, hl⟩ := h.owned _ hmem (isGit_repoLocation loc name)
      refine h'.apart e (List.mem_append_left _ he) _ hnew (hu e he) ?_
      rw [hl]
    · obtain ⟨e, he, rfl⟩ := h'.owned p (mem_mkdirs.mpr (.inr hp)) hg
      rcases List.mem_append.mp he with he | he
      · exact h'.apart e (List.mem_append_left _ he) _ hnew (hu e he) hp
      · rw [List.mem_singleton.mp he] at hne
        exact hne rfl
  · rintro ⟨hmem, hgit⟩
    refine ⟨fun e he => ?_, fun p hp hg => ?_, fun e he e' he' hne hp => ?_⟩
    · rw [mem_mkdirs]
      rcases List.mem_append.mp he with he | he
      · exact .inl (h.kept e he)
      · rw [List.mem_singleton.mp he]; exact .inr List.prefix_rfl
    · rcases mem_mkdirs.mp hp with hp | hp
      · obtain ⟨e, he, hl⟩ := h.owned p hp hg
        exact ⟨e, List.mem_append_left _ he, hl⟩
      · refine ⟨_, hnew, ?_⟩
        by_contra hne
        exact hgit p hp (Ne.symm hne) hg
    · rcases List.mem_append.mp he with he | he
      · rcases List.mem_append.mp he' with he' | he'
        · exact h.apart e he e' he' hne hp
        · rw [List.mem_singleton.mp he'] at hp
          by_cases heq : repoLocation loc e.2 = repoLocation loc name
          · exact hmem (heq ▸ h.kept e he)
          · exact hgit _ hp heq (isGit_repoLocation loc e.2)
      · rw [List.mem_singleton.mp he] at hp hne
        rcases List.mem_append.mp he' with he' | he'
        · exact hmem (hc _ (h.kept e' he') _ hp)
        · rw [List.mem_singleton.mp he'] at hne
          exact hne rfl

/-- A removal keeps the directories separate. -/
theorem Separate.remove (h : Separate loc es dirs) (hm : (u, name) ∈ es)
    (hone : ∀ name', (u, name') ∈ es → name' = name) (he : ∀ e, e ∈ es' ↔ e ∈ es ∧ e.1 ≠ u) :
    Separate loc es' (rm_r dirs (repoLocation loc name)) where
  kept := fun e hm' => by
    obtain ⟨hm', hne⟩ := (he e).mp hm'
    exact mem_rm_r.mpr ⟨h.kept e hm', h.apart _ hm e hm' (Ne.symm hne)⟩
  owned := fun p hp hg => by
    obtain ⟨hp, hno⟩ := mem_rm_r.mp hp
    obtain ⟨⟨u', name'⟩, hm', rfl⟩ := h.owned p hp hg
    refine ⟨_, (he _).mpr ⟨hm', ?_⟩, rfl⟩
    rintro rfl
    rw [hone name' hm'] at hno
    exact hno List.prefix_rfl
  apart := fun e hm1 e' hm2 => h.apart e ((he e).mp hm1).1 e' ((he e').mp hm2).1

end Separate

/-! ### One event -/

/-- The manager is at work, on a sound database and file system. -/
structure Base (a : Actor K) : Prop where
  wf : WF a.db
  isOpen : a.isClosed = false
  running : a.stopped = false
  closed : Closed a.dirs

section Step

variable [DecidableEq K] [HashCode K] [Neodatis (Repository K)] {loc : String} {a : Actor K}
  {msg : Msg K} {out : Outside}

/-- What an event does to entries and directories. -/
inductive Change (loc : String) (a a' : Actor K) (out : Outside) : Msg K → Prop where
  | create (name : String) (hn : ∀ r ∈ records a.db, r.name ≠ name)
      (he : entries a'.db = entries a.db ++ [(out.new.uuid, name)])
      (hd : a'.dirs = mkdirs a.dirs (repoLocation loc name)) :
      Change loc a a' out (.createRepository name)
  | remove (u : UUID) (name : String) (hm : (u, name) ∈ entries a.db)
      (he : ∀ e, e ∈ entries a'.db ↔ e ∈ entries a.db ∧ e.1 ≠ u)
      (hd : a'.dirs = rm_r a.dirs (repoLocation loc name)) :
        Change loc a a' out (.removeRepository u)
  | same (msg : Msg K) (hn : ∀ name, msg = .createRepository name → ∃ r ∈ records a.db,
    r.name = name)
      (he : ∀ e, e ∈ entries a'.db ↔ e ∈ entries a.db) (hd : a'.dirs = a.dirs) :
      Change loc a a' out msg

theorem step_of_result (hb : Base a) {r : Result K} (hr : result loc out a.toState msg = r)
    (hn : r.raises = false) : step loc a (.message msg out) = { a with toState := r.state } := by
  rw [step_message hb.running, hr, hn]
  rfl

/-- A handler that leaves everything as it is. -/
theorem change_of_same (hb : Base a) {r : Result K} (hr : result loc out a.toState msg = r)
    (hn : r.raises = false) (hs : r.state = a.toState)
    (hname : ∀ name, msg = .createRepository name → ∃ r ∈ records a.db, r.name = name) :
    Base (step loc a (.message msg out)) ∧ Change loc a
      (step loc a (.message msg out)) out msg := by
  rw [step_of_result hb hr hn, hs]
  exact ⟨hb, .same msg hname (fun _ => Iff.rfl) rfl⟩

theorem change_createRepository (hb : Base a) (hw : Works out) (hf : a.db.find out.new.uuid = none)
    (name : String) :
    Base (step loc a (.message (.createRepository name) out)) ∧
      Change loc a (step loc a (.message (.createRepository name) out)) out
        (.createRepository name) := by
  have hr : result loc out a.toState (.createRepository name) =
      createRepository loc out a.toState name := query_open hb.isOpen _
  rcases hq : (nativeQueryCollection a.db.currentODB fun r => r.name == name) with _ | ⟨o, os⟩
  · have hnew : ∀ r ∈ records a.db, r.name ≠ name := byName_eq_nil.mp hq
    have hr' : result loc out a.toState (.createRepository name) =
        ⟨{ a.toState with
            db := a.db.saveNew ⟨name, ImmutableSet.empty, out.new.uuid, out.new.now⟩
            dirs := mkdirs a.dirs (repoLocation loc name) },
          [.repository ⟨name, ImmutableSet.empty, out.new.uuid, out.new.now⟩], false⟩ := by
      rw [hr, createRepository, hq]
      simp only [List.head?_nil, gitInit, hw.1, Bool.false_eq_true, if_false]
    rw [step_of_result hb hr' rfl]
    refine ⟨⟨wf_saveNew hb.wf _, hb.isOpen, hb.running, hb.closed.mkdirs _⟩,
      .create name hnew ?_ rfl⟩
    exact entries_saveNew hb.wf hf
  · refine change_of_same hb (hr.trans (by rw [createRepository, hq])) rfl rfl fun name' he => ?_
    cases he
    by_contra hno
    push Not at hno
    rw [byName_eq_nil.mpr hno] at hq
    cases hq

/-- A removal of a repository with its directory. -/
theorem result_removeRepository (hb : Base a) (hw : Works out) {u : UUID}
    {repo : Instance (Repository K)} (hf : a.db.find u = some repo)
    (hd : repoLocation loc repo.value.name ∈ a.dirs) :
    result loc out a.toState (.removeRepository u) =
      ⟨{ a.toState with
          db := a.db.remove repo.value.uuid
          dirs := rm_r a.dirs (repoLocation loc repo.value.name) },
        [.apiSuccess, .apiSuccess], false⟩ := by
  refine (query_open hb.isOpen _).trans ?_
  simp only [withRepo, hf, removeRepository, hd, not_true_eq_false, if_false, hw.2, if_true]
  rfl

theorem change_removeRepository (hb : Base a) (hw : Works out) (u : UUID) :
    Base (step loc a (.message (.removeRepository u) out)) ∧
      Change loc a (step loc a (.message (.removeRepository u) out)) out (.removeRepository u) := by
  have hr : result loc out a.toState (.removeRepository u) =
      withRepo a.toState u fun repo => removeRepository loc out a.toState repo :=
        query_open hb.isOpen _
  have hname : ∀ name, Msg.removeRepository u = (.createRepository name : Msg K) →
      ∃ r ∈ records a.db, r.name = name := fun name h => by cases h
  rcases hf : a.db.find u with _ | repo
  · exact change_of_same hb (hr.trans (by simp only [withRepo, hf]; rfl)) rfl rfl hname
  by_cases hd : repoLocation loc repo.value.name ∈ a.dirs
  · have hu : repo.value.uuid = u := (find_mem hf).2
    rw [step_of_result hb (result_removeRepository hb hw hf hd) rfl]
    refine ⟨⟨wf_remove hb.wf _, hb.isOpen, hb.running, hb.closed.rm_r _⟩,
      .remove u repo.value.name (entry_of_find hf) (fun e => ?_) rfl⟩
    show e ∈ entries (a.db.remove repo.value.uuid) ↔ _
    rw [hu]
    exact mem_entries_remove hb.wf
  · refine change_of_same (r := ⟨a.toState, [.repositoryDoesNotExistError, .apiSuccess], false⟩) hb
      (hr.trans ?_) rfl rfl hname
    simp only [withRepo, hf, removeRepository, hd, not_false_eq_true, if_true]
    rfl

theorem change_keyMsg (hb : Base a) (u : UUID) (o : Keys.KeyOp K) :
    Base (step loc a (.message (keyMsg u o) out)) ∧
      Change loc a (step loc a (.message (keyMsg u o) out)) out (keyMsg u o) := by
  obtain ⟨hn, hs⟩ := result_keyMsg loc out hb.isOpen u o
  have hwf : WF (Keys.update a.db u o out.new.now) := by
    unfold Keys.update Keys.withRepo
    rcases a.db.find u with _ | repo
    · exact hb.wf
    · exact wf_saveNew hb.wf _
  rw [step_of_result hb rfl hn, hs]
  refine ⟨⟨hwf, hb.isOpen, hb.running, hb.closed⟩,
    .same _ (fun name h => ?_) (fun e => mem_entries_update hb.wf o _) rfl⟩
  cases o <;> cases h

/-- **What a message does**, for every message that `receive` has a case for. -/
theorem change_step (hb : Base a) (he : Env loc a (.message msg out)) :
    Base (step loc a (.message msg out)) ∧ Change loc a
      (step loc a (.message msg out)) out msg := by
  obtain ⟨hsome, hw, hf⟩ := he
  cases msg with
  | listRepositories =>
    exact change_of_same hb (query_open hb.isOpen _) rfl rfl fun _ h => by cases h
  | getRepositoryByName name =>
    exact change_of_same hb (query_open hb.isOpen _) rfl rfl fun _ h => by cases h
  | getRepositoryByUUID u =>
    exact change_of_same hb (query_open hb.isOpen _) rfl rfl fun _ h => by cases h
  | createRepository name => exact change_createRepository hb hw hf name
  | removeRepository u => exact change_removeRepository hb hw u
  | addAuthorizedKey u key => exact change_keyMsg hb u (.add key)
  | removeAuthorizedKey u key => exact change_keyMsg hb u (.remove key)
  | repository repo => exact change_of_same hb rfl rfl rfl fun _ h => by cases h
  | repositoryExistsError => exact change_of_same hb rfl rfl rfl fun _ h => by cases h
  | updateRepositoryConfiguration repo => cases hsome
  | repositoryDoesNotExistError => cases hsome
  | repositories repos => cases hsome
  | other => cases hsome

/-- The law, in terms of entries. -/
theorem oneToOne_iff_separate (hb : Base a) :
    OneToOne loc a ↔ Separate loc (entries a.db) a.dirs := by
  -- the directories after a removal
  have hrm : (∀ r ∈ records a.db, repoLocation loc r.name ∈ a.dirs) → ∀ r ∈ records a.db, ∀ out,
      Works out → (step loc a (.message (.removeRepository r.uuid) out)).dirs =
        rm_r a.dirs (repoLocation loc r.name) := by
    intro hkept r hr out hw
    obtain ⟨o, hf, hname⟩ := find_of_entry hb.wf (mem_entries_of_mem hr)
    have hd : repoLocation loc o.value.name ∈ a.dirs := by rw [hname]; exact hkept r hr
    rw [step_of_result hb (result_removeRepository hb hw hf hd) rfl, ← hname]
  constructor
  · intro h
    refine ⟨?_, fun p hp hg => ?_, ?_⟩
    · rintro ⟨u, name⟩ he
      obtain ⟨r, hr, rfl, rfl⟩ := mem_entries.mp he
      exact h.kept r hr
    · obtain ⟨r, hr, hl⟩ := h.owned p hp hg
      exact ⟨(r.uuid, r.name), mem_entries_of_mem hr, hl⟩
    · rintro ⟨u, name⟩ he ⟨u', name'⟩ he' hne hp
      obtain ⟨r, hr, rfl, rfl⟩ := mem_entries.mp he
      obtain ⟨r', hr', rfl, rfl⟩ := mem_entries.mp he'
      have hout : Works ⟨⟨⟨0, 0⟩, 0⟩, .returns, true⟩ := ⟨rfl, rfl⟩
      have hleft := (h.remove r hr _ hout).2 r' hr' (Ne.symm hne)
      rw [hrm h.kept r hr _ hout, mem_rm_r] at hleft
      exact hleft.2 hp
  · intro h
    have hkept : ∀ r ∈ records a.db, repoLocation loc r.name ∈ a.dirs := fun r hr =>
      h.kept (r.uuid, r.name) (mem_entries_of_mem hr)
    have hapart : ∀ r ∈ records a.db, ∀ r' ∈ records a.db, r.uuid ≠ r'.uuid →
        ¬ repoLocation loc r.name <+: repoLocation loc r'.name := fun r hr r' hr' =>
      h.apart (r.uuid, r.name) (mem_entries_of_mem hr) (r'.uuid, r'.name) (mem_entries_of_mem hr')
    refine ⟨fun r hr r' hr' hne heq => ?_, hkept, fun p hp hg => ?_, fun r hr out hw => ?_⟩
    · exact hapart r hr r' hr' hne (by rw [heq])
    · obtain ⟨⟨u, name⟩, he, hl⟩ := h.owned p hp hg
      obtain ⟨r, hr, rfl, rfl⟩ := mem_entries.mp he
      exact ⟨r, hr, hl⟩
    · rw [hrm hkept r hr out hw]
      refine ⟨fun hmem => (mem_rm_r.mp hmem).2 List.prefix_rfl, fun r' hr' hne => ?_⟩
      exact mem_rm_r.mpr ⟨hkept r' hr', hapart r hr r' hr' (Ne.symm hne)⟩

/-- One event keeps the directories separate exactly when it creates no repository where one is. -/
theorem separate_step (hb : Base a) (h : Separate loc (entries a.db) a.dirs) {e : Event K}
    (he : Env loc a e) :
    Separate loc (entries (step loc a e).db) (step loc a e).dirs ↔ Apart loc a e := by
  cases e with
  | stop => exact absurd he id
  | message msg out =>
    obtain ⟨-, hc⟩ := change_step hb he
    generalize step loc a (.message msg out) = a' at hc ⊢
    cases hc with
    | create name hn hent hd =>
      have hu : ∀ e ∈ entries a.db, e.1 ≠ out.new.uuid := by
        rintro ⟨u, name'⟩ hm rfl
        obtain ⟨o, hf, -⟩ := find_of_entry hb.wf hm
        rw [he.2.2] at hf
        cases hf
      rw [hent, hd, separate_create h hb.closed hu]
      exact ⟨fun h _ => h, fun h => h hn⟩
    | remove u name hm hent hd =>
      rw [hd]
      refine iff_of_true (h.remove hm (fun name' hm' => name_unique hb.wf hm' hm) hent) trivial
    | same _ hn hent hd =>
      rw [hd]
      refine iff_of_true (h.congr hent) ?_
      cases msg with
      | createRepository name =>
        intro hno
        obtain ⟨r, hr, hname⟩ := hn name rfl
        exact absurd hname (hno r hr)
      | _ => trivial

end Step

/-! ### Runs -/

section Runs

variable [DecidableEq K] [HashCode K] [Neodatis (Repository K)] {loc : String} {dirs : List Path}

omit [DecidableEq K] [HashCode K] [Neodatis (Repository K)] in
theorem base_start (hc : Closed dirs) : Base (start loc dirs : Actor K) := by
  rw [start_eq]
  refine ⟨wf_init, rfl, rfl, ?_⟩
  show Closed (checkOrCreateDir dirs loc)
  unfold checkOrCreateDir
  split_ifs
  · exact hc
  · exact hc.mkdirs _

omit [DecidableEq K] [HashCode K] [Neodatis (Repository K)] in
theorem separate_start (hg : ∀ p ∈ (start loc dirs : Actor K).dirs, ¬ IsGit p) :
    Separate loc (entries (start loc dirs : Actor K).db) (start loc dirs : Actor K).dirs :=
  ⟨fun e he => (by cases he), fun p hp hgit => absurd hgit (hg p hp), fun e he => (by cases he)⟩

/-- **Records and directories correspond exactly when every repository is created in a directory of
its own**: along every run of messages that `receive` has a case for, whatever the names, from a
file system without `.git` directories. -/
theorem oneToOne_iff (loc : String) {dirs : List Path} (hc : Closed dirs)
    (hg : ∀ p ∈ (start loc dirs : Actor K).dirs, ¬ IsGit p) (evs : List (Event K))
    (henv : Meets (step loc) (Env loc) (start loc dirs) evs) :
    (∀ pre, pre <+: evs → OneToOne loc (run (step loc) (start loc dirs) pre)) ↔
      Meets (step loc) (Apart loc) (start loc dirs) evs := by
  have hbase : Base (start loc dirs : Actor K) := base_start hc
  have hstep : ∀ (a : Actor K) e, Base a → Env loc a e → Base (step loc a e) := by
    intro a e hb he
    cases e with
    | stop => exact absurd he id
    | message msg out => exact (change_step hb he).1
  have hall := always_iff_meets (P := fun a => Base a ∧ Separate loc (entries a.db) a.dirs)
    (E := Env loc) (C := Apart loc) (fun a e ha he => ?_) ⟨hbase, separate_start hg⟩ henv
  · rw [← hall]
    have hpre : ∀ pre, pre <+: evs → Base (run (step loc) (start loc dirs) pre) := fun pre hp =>
      (henv.of_prefix hp).invariant (fun a e hb he => hstep a e hb he) hbase
    constructor
    · exact fun h pre hp => ⟨hpre pre hp, (oneToOne_iff_separate (hpre pre hp)).mp (h pre hp)⟩
    · exact fun h pre hp => (oneToOne_iff_separate (hpre pre hp)).mpr (h pre hp).2
  · rw [← separate_step ha.1 ha.2 he]
    exact ⟨fun h => h.2, fun h => ⟨hstep a e ha.1 he, h⟩⟩

end Runs

/-! ### Names without a slash -/

/-- A name that is one step of a path. -/
def Plain (name : String) : Prop := name.toList ≠ [] ∧ '/' ∉ name.toList

theorem repoLocation_plain {name : String} (loc : String) (h : Plain name) :
    repoLocation loc name = resolve loc.toList ++ [name.toList ++ ".git".toList] := by
  have hs : '/' ∉ name.toList ++ ".git".toList := by
    rw [List.mem_append]
    exact fun hm => hm.elim h.2 (by decide)
  have hn : ∃ c ∈ name.toList ++ ".git".toList, c ≠ '.' :=
    ⟨'g', List.mem_append_right _ (by decide), by decide⟩
  have hhead : name.toList.head? ≠ some '/' := fun hh => h.2 (List.mem_of_head? hh)
  have hname : name.toList.isEmpty = false := by simpa using h.1
  unfold repoLocation Utils.Path.join Utils.Path.joinChars
  simp only [String.toList_append, String.toList_ofList, hname, hhead, if_false, Bool.false_eq_true]
  rcases List.eq_nil_or_concat loc.toList with hl | ⟨cs, c, hl⟩
  · rw [hl]
    simp only [List.isEmpty_nil, if_true]
    rw [resolve, walk_name _ _ _ hs, List.nil_append, enter_name _ hn]
    rfl
  · rw [List.concat_eq_append] at hl
    rw [hl, if_neg (by simp), List.getLast?_concat]
    split_ifs with hc
    · -- the location ends in a slash
      cases hc
      rw [List.append_assoc, List.append_assoc, List.singleton_append, resolve_join hs hn]
      have hend : resolve (cs ++ '/' :: []) = resolve cs := by
        rw [resolve, walk_slash]
        rfl
      rw [hend]
    · rw [List.append_assoc, List.cons_append, resolve_join hs hn]

theorem eq_of_repoLocation {loc name name' : String} (h : Plain name) (h' : Plain name')
    (heq : repoLocation loc name = repoLocation loc name') : name = name' := by
  rw [repoLocation_plain loc h, repoLocation_plain loc h'] at heq
  have hlast := List.singleton_inj.mp (List.append_cancel_left heq)
  exact String.toList_inj.mp (List.append_cancel_right hlast)

section Plain

/-- The names of new repositories have no slash. -/
def PlainNames : Event K → Prop
  | .message (.createRepository name) _ => Plain name
  | _ => True

theorem apart_of_plain {loc : String} {a : Actor K} (hs : Separate loc (entries a.db) a.dirs)
    (hnames : ∀ e ∈ entries a.db, Plain e.2) (hloc : ∀ p, p <+: resolve loc.toList → ¬ IsGit p)
    {e : Event K} (he : PlainNames e) : Apart loc a e := by
  rcases e with ⟨msg, out⟩ | _
  · cases msg with
    | createRepository name =>
      have hp : Plain name := he
      intro hno
      refine ⟨fun hmem => ?_, fun p hpre hne => ?_⟩
      · obtain ⟨⟨u, name'⟩, hm, hl⟩ := hs.owned _ hmem (isGit_repoLocation loc name)
        obtain ⟨r, hr, -, hname⟩ := mem_entries.mp hm
        exact hno r hr (hname.trans (eq_of_repoLocation (hnames _ hm) hp hl))
      · rw [repoLocation_plain loc hp] at hpre hne
        exact hloc p ((List.prefix_concat_iff.mp hpre).resolve_left hne)
    | _ => trivial
  · trivial

variable [DecidableEq K] [HashCode K] [Neodatis (Repository K)]

/-- **Names without a slash need no further condition.** -/
theorem oneToOne_plain (loc : String) {dirs : List Path} (hc : Closed dirs)
    (hg : ∀ p ∈ (start loc dirs : Actor K).dirs, ¬ IsGit p) (evs : List (Event K))
    (henv : Meets (step loc) (Env loc) (start loc dirs) evs) (hplain : ∀ e ∈ evs, PlainNames e) :
    OneToOne loc (run (step loc) (start loc dirs) evs) := by
  have hloc : ∀ p, p <+: resolve loc.toList → ¬ IsGit p := by
    intro p hp
    refine hg p ((base_start hc).closed (resolve loc.toList) ?_ p hp)
    show _ ∈ checkOrCreateDir dirs loc
    unfold checkOrCreateDir
    split_ifs with h
    · exact h
    · exact mem_mkdirs.mpr (.inr List.prefix_rfl)
  have hinv := (henv.and_forall hplain).invariant
    (P := fun a => Base a ∧ Separate loc (entries a.db) a.dirs ∧ ∀ e ∈ entries a.db, Plain e.2) ?_
    ⟨base_start hc, separate_start hg, fun e he => (by cases he)⟩
  · exact (oneToOne_iff_separate hinv.1).mpr hinv.2.1
  · rintro a e ⟨hb, hs, hn⟩ ⟨he, hp⟩
    have hs' := (separate_step hb hs he).mpr (apart_of_plain hs hn hloc hp)
    cases e with
    | stop => exact absurd he id
    | message msg out =>
      obtain ⟨hb', hc⟩ := change_step hb he
      refine ⟨hb', hs', ?_⟩
      generalize step loc a (.message msg out) = a' at hc
      cases hc with
      | create name _ hent =>
        rw [hent]
        intro e hm
        rcases List.mem_append.mp hm with hm | hm
        · exact hn e hm
        · rw [List.mem_singleton.mp hm]; exact hp
      | remove u name _ hent => exact fun e hm => hn e ((hent e).mp hm).1
      | same _ _ hent => exact fun e hm => hn e ((hent e).mp hm)

end Plain

/-! ### Two runs -/

/-- All goes well, with the uuid `k`. -/
def works (k : ℕ) : Outside := ⟨⟨⟨0, BitVec.ofNat 64 k⟩, 0⟩, .returns, true⟩

/-- Two repositories are created, and the first is removed. -/
def aAndB : List (Event X509Key) :=
  [.message (.createRepository "a") (works 1), .message (.createRepository "b/c") (works 2),
    .message (.removeRepository ⟨0, 1⟩) (works 3)]

/-- Two names for one directory. -/
def aAndSlashA : List (Event X509Key) :=
  [.message (.createRepository "a") (works 1), .message (.createRepository "/a") (works 2)]

theorem oneToOne_aAndB :
    OneToOne "/git" (run (step "/git") (start "/git" [[]]) aAndB) ∧
      (records (run (step "/git") (start "/git" [[]]) aAndB).db).map (·.name) = ["b/c"] ∧
      repoLocation "/git" "a" ∉ (run (step "/git") (start "/git" [[]]) aAndB).dirs ∧
      repoLocation "/git" "b/c" ∈ (run (step "/git") (start "/git" [[]]) aAndB).dirs := by
  have hclosed : Closed [[]] := by
    intro p hp q hq
    rw [List.mem_singleton.mp hp] at hq
    rw [List.prefix_nil.mp hq]
    exact List.mem_singleton.mpr rfl
  have hgit : ∀ p ∈ (start "/git" [[]] : Actor X509Key).dirs, ¬ IsGit p := by decide
  have henv : Meets (step "/git") (Env "/git") (start "/git" [[]]) aAndB :=
    ⟨⟨rfl, ⟨rfl, rfl⟩, by decide⟩, ⟨rfl, ⟨rfl, rfl⟩, by decide⟩,
      ⟨rfl, ⟨rfl, rfl⟩, by decide⟩, trivial⟩
  have hinits : ∀ name ∈ ["a", "b/c"], ∀ p ∈ (repoLocation "/git" name).inits,
      p ≠ repoLocation "/git" name → ¬ IsGit p := by decide
  have hapart : Meets (step "/git") (Apart "/git") (start "/git" [[]]) aAndB := by
    refine ⟨fun _ => ⟨by decide, fun p hp => ?_⟩, fun _ => ⟨by decide, fun p hp => ?_⟩,
      trivial, trivial⟩
    · exact hinits "a" (by simp) p ((List.mem_inits p _).mpr hp)
    · exact hinits "b/c" (by simp) p ((List.mem_inits p _).mpr hp)
  refine ⟨(oneToOne_iff "/git" hclosed hgit aAndB henv).mpr hapart _ List.prefix_rfl, ?_⟩
  exact ⟨by decide, by decide, by decide⟩

/-- Both records have the directory `/git/a.git`. -/
theorem not_oneToOne_aAndSlashA :
    Meets (step "/git") (Env "/git") (start "/git" [[]]) aAndSlashA ∧
      ¬ OneToOne "/git" (run (step "/git") (start "/git" [[]]) aAndSlashA) := by
  refine ⟨⟨⟨rfl, ⟨rfl, rfl⟩, by decide⟩, ⟨rfl, ⟨rfl, rfl⟩, by decide⟩, trivial⟩, fun h => ?_⟩
  have hents : entries (run (step "/git") (start "/git" [[]]) aAndSlashA).db =
    [(⟨0, 1⟩, "a"), (⟨0, 2⟩, "/a")] := by decide
  obtain ⟨r, hr, hu, hn⟩ := mem_entries.mp (show (⟨0, 1⟩, "a") ∈ entries _ by rw [hents]; simp)
  obtain ⟨r', hr', hu', hn'⟩ := mem_entries.mp (show (⟨0, 2⟩, "/a") ∈ entries _ by rw [hents]; simp)
  refine h.distinct r hr r' hr' ?_ ?_
  · rw [hu, hu']; decide
  · rw [hn, hn']; decide

end ServeD.Managers.GitDirectories
