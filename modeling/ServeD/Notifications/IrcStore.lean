import ServeD.Lib.Runs
import ServeD.Notifications.IrcTasks

/-! # The task lists are kept

With every operation of Redis succeeding, and as long as identifiers do not reach the limit of an
`Int`: the identifiers of a list are in increasing order and below the next one, none is assigned
twice between two wipes, and every command changes what it is to change and nothing else
(`taskStore`). -/

namespace ServeD.Notifications.IrcTasks

open ServeD.Lib.Exceptions ServeD.Lib.Json ServeD.Lib.Runs

variable {Text : Type} (json4s : Codec Text)

/-! ### What is to be kept -/

/-- The identifiers are in increasing order, from 1 to below the next one. -/
structure Ordered (tasks : Tasks) : Prop where
  pos : 1 ≤ tasks.nextId.toInt
  increasing : (tasks.list.map fun task => task.id.toInt).Pairwise (· < ·)
  range : ∀ task ∈ tasks.list, 1 ≤ task.id.toInt ∧ task.id.toInt < tasks.nextId.toInt

/-- Every operation of Redis succeeds. -/
def Message.AllSucceed (m : Message) : Prop := ∀ b ∈ m.outcomes, b = true

/-- No list has reached the limit. -/
def Below (redis : Redis Text) (_ : Message) : Prop :=
  ∀ nickname, (stored json4s redis nickname).nextId.toInt < 2 ^ 31 - 1

/-- The nickname whose list a message is about. -/
def Message.target (m : Message) : String :=
  match m.command with
  | .add nickname _ => nickname
  | _ => m.sender

/-- The list of a nickname is wiped. -/
def Message.Wipes (m : Message) (nickname : String) : Prop :=
  m.command = .wipe ∧ m.sender = nickname

/-- A task is to be added. -/
def Message.adds (m : Message) : Bool :=
  match m.command with
  | .add _ _ => true
  | _ => false

/-- The identifier that a message assigns to a new task of a nickname. -/
def assignedBy (nickname : String) (redis : Redis Text) (m : Message) : Option ℤ :=
  (written json4s redis m).bind fun p =>
    if p.1 = nickname ∧ m.adds then p.2.list.getLast?.map fun task => task.id.toInt else .none

/-- The identifiers that are assigned to the tasks of a nickname, in order. -/
def assigned (nickname : String) : Redis Text → List Message → List ℤ
  | _, [] => []
  | redis, m :: ms => (assignedBy json4s nickname redis m).toList ++ assigned nickname
    (step json4s redis m) ms

/-- What the store of the task lists guarantees. -/
structure TaskStore : Prop where
  ordered : ∀ ms : List Message, (∀ m ∈ ms, m.AllSucceed) →
    Meets (step json4s) (Below json4s) .empty ms →
    ∀ nickname, Ordered (stored json4s (run (step json4s) .empty ms) nickname)
  fresh : ∀ (pre ms : List Message) (nickname : String), (∀ m ∈ pre ++ ms, m.AllSucceed) →
    Meets (step json4s) (Below json4s) .empty (pre ++ ms) → (∀ m ∈ ms, ¬ m.Wipes nickname) →
      (assigned json4s nickname (run (step json4s) .empty pre) ms).Nodup
  done : ∀ (redis : Redis Text) (m : Message) (ids : List String) (numbers : List (BitVec 32)),
    m.AllSucceed →
    m.sender ∈ allowedUserNames → words m.message = ".done" :: ids → ids ≠ [] →
    toInts ids = some numbers →
      stored json4s (step json4s redis m) m.sender =
        ⟨(stored json4s redis m.sender).list.map fun task =>
          { task with done := task.done || decide (task.id ∈ numbers) },
            (stored json4s redis m.sender).nextId⟩
  remove : ∀ (redis : Redis Text) (m : Message) (ids : List String) (numbers : List (BitVec 32)),
    m.AllSucceed →
    m.sender ∈ allowedUserNames → words m.message = ".remove" :: ids → ids ≠ [] →
    toInts ids = some numbers →
      stored json4s (step json4s redis m) m.sender =
        ⟨(stored json4s redis m.sender).list.filter fun task => task.id ∉ numbers,
          (stored json4s redis m.sender).nextId⟩
  notNumeric : ∀ (redis : Redis Text) (m : Message) (ids : List String),
    words m.message = ".done" :: ids ∨ words m.message = ".remove" :: ids → toInts ids = .none →
      step json4s redis m = redis
  others : ∀ (redis : Redis Text) (m : Message) (nickname : String), nickname ≠ m.target →
    (step json4s redis m).tasks (redisKey nickname) = redis.tasks (redisKey nickname)
  roundTrip : ∀ tasks : Tasks,
    (json4s.parse (json4s.compact (renderTasks tasks))).bind parseTasks = some tasks

variable {json4s}

/-! ### Lists -/

theorem Ordered.none : Ordered Tasks.none :=
  ⟨by decide, List.Pairwise.nil, fun _ h => absurd h List.not_mem_nil⟩

theorem toInt_nextId_add {tasks : Tasks} (h : tasks.nextId.toInt < 2 ^ 31 - 1) :
    (tasks.nextId + 1).toInt = tasks.nextId.toInt + 1 := by
  have hlo : -2 ^ 31 ≤ tasks.nextId.toInt := BitVec.le_toInt _
  have hone : (1 : BitVec 32).toInt = 1 := by decide
  rw [BitVec.toInt_add, hone, Int.bmod_eq_of_le (by omega) (by omega)]

theorem Ordered.add {tasks : Tasks} (h : Ordered tasks) (hb : tasks.nextId.toInt < 2 ^ 31 - 1)
    (content : List String) (timeStamp : BitVec 64) : Ordered (tasks.add content timeStamp) := by
  have hnext : (tasks.add content timeStamp).nextId.toInt = tasks.nextId.toInt + 1 :=
    toInt_nextId_add hb
  have hpos := h.pos
  refine ⟨by omega, ?_, fun task ht => ?_⟩
  · show ((tasks.list ++ [_]).map _).Pairwise _
    rw [List.map_append, List.map_singleton, List.pairwise_append]
    refine ⟨h.increasing, List.pairwise_singleton _ _, fun a ha b hb => ?_⟩
    obtain ⟨task, ht, rfl⟩ := List.mem_map.mp ha
    rw [List.mem_singleton.mp hb]
    exact (h.range task ht).2
  · rw [hnext]
    rcases List.mem_append.mp ht with ht | ht
    · have hrange := h.range task ht
      omega
    · rw [List.mem_singleton.mp ht]
      show 1 ≤ tasks.nextId.toInt ∧ tasks.nextId.toInt < tasks.nextId.toInt + 1
      omega

/-- Tasks keep their identifiers. -/
theorem markDone_eq (tasks : Tasks) (ids : List (BitVec 32)) :
    tasks.markDone ids =
      ⟨tasks.list.map fun task => { task with done := task.done || decide (task.id ∈ ids) },
        tasks.nextId⟩ := by
  unfold Tasks.markDone
  congr 1
  refine List.map_congr_left fun task _ => ?_
  by_cases h : task.id ∈ ids
  · simp [h]
  · simp [h]

theorem Ordered.markDone {tasks : Tasks} (h : Ordered tasks) (ids : List (BitVec 32)) :
    Ordered (tasks.markDone ids) := by
  rw [markDone_eq]
  refine ⟨h.pos, ?_, fun task ht => ?_⟩
  · rw [List.map_map]
    exact h.increasing
  · obtain ⟨task', ht', rfl⟩ := List.mem_map.mp ht
    exact h.range task' ht'

theorem Ordered.remove {tasks : Tasks} (h : Ordered tasks) (ids : List (BitVec 32)) :
    Ordered (tasks.remove ids) := by
  refine ⟨h.pos, ?_, fun task ht => h.range task (List.mem_filter.mp ht).1⟩
  exact h.increasing.sublist (List.filter_sublist.map _)

/-! ### One message -/

theorem Message.AllSucceed.succeeds {m : Message} (h : m.AllSucceed) (i : ℕ) :
    m.succeeds i = true := by
  unfold Message.succeeds
  rw [List.getD_eq_getElem?_getD]
  rcases hi : m.outcomes[i]? with _ | b
  · rfl
  · exact h b (List.mem_of_getElem? hi)

theorem readTasks_eq {m : Message} (h : m.AllSucceed) (redis : Redis Text) (nickname : String) :
    readTasks json4s redis m nickname = stored json4s redis nickname := if_pos (h.succeeds 0)

theorem writes_eq_some {m : Message} {nickname n : String} {args : List String}
    {list : Option Tasks} {l : Tasks} (h : writes m nickname args list = some (n, l)) :
    n = nickname ∧ list = some l := by
  unfold writes at h
  split_ifs at h
  obtain ⟨l', hl, hpair⟩ := Option.map_eq_some_iff.mp h
  obtain ⟨rfl, rfl⟩ := Prod.mk.inj hpair
  exact ⟨rfl, hl⟩

/-- **What can be written**: a list with one more task, with tasks done, with tasks removed,
or an empty one. -/
theorem written_cases {redis : Redis Text} {m : Message} {n : String} {list : Tasks}
    (h : written json4s redis m = some (n, list)) : n = m.target ∧
      ((∃ content, m.command = .add n content ∧
        list = (readTasks json4s redis m n).add content m.timeStamp) ∨
      (∃ ids numbers, m.command = .done ids ∧ toInts ids = some numbers ∧
        list = (readTasks json4s redis m n).markDone numbers) ∨
      (∃ ids numbers, m.command = .remove ids ∧ toInts ids = some numbers ∧
        list = (readTasks json4s redis m n).remove numbers) ∨
      (m.Wipes n ∧ list = Tasks.none)) := by
  unfold written at h
  unfold Message.target Message.Wipes
  rcases hc : m.command with _ | _ | ⟨nickname, content⟩ | ids | ids | _ |
    ⟨nickname, state, paginate⟩ | _
  all_goals rw [hc] at h
  · cases h
  · cases h
  · obtain ⟨rfl, hl⟩ := writes_eq_some h
    obtain rfl := Option.some.inj hl
    exact ⟨rfl, .inl ⟨content, rfl, rfl⟩⟩
  · obtain ⟨rfl, hl⟩ := writes_eq_some h
    obtain ⟨numbers, hn, rfl⟩ := Option.map_eq_some_iff.mp hl
    exact ⟨rfl, .inr (.inl ⟨ids, numbers, rfl, hn, rfl⟩)⟩
  · obtain ⟨rfl, hl⟩ := writes_eq_some h
    obtain ⟨numbers, hn, rfl⟩ := Option.map_eq_some_iff.mp hl
    exact ⟨rfl, .inr (.inr (.inl ⟨ids, numbers, rfl, hn, rfl⟩))⟩
  · dsimp only at h
    split_ifs at h
    obtain ⟨rfl, rfl⟩ := Prod.mk.inj (Option.some.inj h)
    exact ⟨rfl, .inr (.inr (.inr ⟨⟨rfl, rfl⟩, rfl⟩))⟩
  · cases h
  · cases h

theorem ordered_step {redis : Redis Text} {m : Message} (hm : m.AllSucceed)
    (hb : Below json4s redis m) (h : ∀ nickname, Ordered (stored json4s redis nickname))
    (nickname : String) :
    Ordered (stored json4s (step json4s redis m) nickname) := by
  rcases stored_step_cases json4s redis m nickname with hw | ⟨-, heq⟩
  · have hread : readTasks json4s redis m nickname = stored json4s redis nickname :=
      readTasks_eq hm _ _
    obtain ⟨-, ⟨content, -, heq⟩ | ⟨ids, numbers, -, -, heq⟩ | ⟨ids, numbers, -, -,
      heq⟩ | ⟨-, heq⟩⟩ :=
      written_cases hw
    · rw [heq, hread]
      exact (h nickname).add (hb nickname) content m.timeStamp
    · rw [heq, hread]
      exact (h nickname).markDone numbers
    · rw [heq, hread]
      exact (h nickname).remove numbers
    · rw [heq]
      exact .none
  · rw [heq]
    exact h nickname

theorem assignedBy_eq_some {redis : Redis Text} {m : Message} {nickname : String} {i : ℤ}
    (h : assignedBy json4s nickname redis m = some i) : m.adds ∧ ∃ list task,
      written json4s redis m = some (nickname, list) ∧ list.list.getLast? = some task ∧
      task.id.toInt = i := by
  obtain ⟨⟨n, list⟩, hw, hi⟩ := Option.bind_eq_some_iff.mp h
  split_ifs at hi with hn
  obtain ⟨rfl, hadds⟩ := hn
  obtain ⟨task, ht, rfl⟩ := Option.map_eq_some_iff.mp hi
  exact ⟨hadds, list, task, hw, ht, rfl⟩

/-- The next identifier moves forward, but for a wipe. -/
theorem nextId_le_step {redis : Redis Text} {m : Message} {nickname : String} (hm : m.AllSucceed)
    (hb : Below json4s redis m) (hw : ¬ m.Wipes nickname) :
    (stored json4s redis nickname).nextId.toInt ≤
      (stored json4s (step json4s redis m) nickname).nextId.toInt := by
  rcases stored_step_cases json4s redis m nickname with hwritten | ⟨-, heq⟩
  · have hread : readTasks json4s redis m nickname = stored json4s redis nickname :=
      readTasks_eq hm _ _
    obtain ⟨-, ⟨content, -, heq⟩ | ⟨ids, numbers, -, -, heq⟩ | ⟨ids, numbers, -, -,
      heq⟩ | ⟨hwipe, -⟩⟩ :=
      written_cases hwritten
    · rw [heq, hread]
      show _ ≤ ((stored json4s redis nickname).nextId + 1).toInt
      rw [toInt_nextId_add (hb nickname)]
      omega
    · rw [heq, hread]
      exact le_refl _
    · rw [heq, hread]
      exact le_refl _
    · exact absurd hwipe hw
  · rw [heq]

/-- The next identifier is the one that is assigned, and moves past it. -/
theorem nextId_of_assignedBy {redis : Redis Text} {m : Message} {nickname : String} {i : ℤ}
    (hm : m.AllSucceed) (hb : Below json4s redis m)
    (h : assignedBy json4s nickname redis m = some i) :
    i = (stored json4s redis nickname).nextId.toInt ∧
      i < (stored json4s (step json4s redis m) nickname).nextId.toInt := by
  have hread : readTasks json4s redis m nickname = stored json4s redis nickname :=
    readTasks_eq hm _ _
  obtain ⟨hadds, list, task, hw, htask, rfl⟩ := assignedBy_eq_some h
  unfold Message.adds at hadds
  obtain ⟨-, ⟨content, -, rfl⟩ | ⟨ids, numbers, hc, -⟩ | ⟨ids, numbers, hc, -⟩ | ⟨⟨hc, -⟩, -⟩⟩ :=
    written_cases hw
  · rw [stored_step, hw, afterWrite, if_pos rfl, hread]
    rw [hread, Tasks.add, List.getLast?_concat] at htask
    obtain rfl := Option.some.inj htask
    refine ⟨rfl, ?_⟩
    show (stored json4s redis nickname).nextId.toInt <
      ((stored json4s redis nickname).nextId + 1).toInt
    rw [toInt_nextId_add (hb nickname)]
    omega
  all_goals
    rw [hc] at hadds
    cases hadds

/-! ### Runs -/

/-- Identifiers are assigned in increasing order, as long as there is no wipe. -/
theorem assigned_increasing {ms : List Message} {redis : Redis Text} {nickname : String}
    (hms : ∀ m ∈ ms, m.AllSucceed) (hb : Meets (step json4s) (Below json4s) redis ms)
    (hw : ∀ m ∈ ms, ¬ m.Wipes nickname) :
    (assigned json4s nickname redis ms).Pairwise (· < ·) ∧
      ∀ i ∈ assigned json4s nickname redis ms, (stored json4s redis nickname).nextId.toInt ≤ i := by
  induction ms generalizing redis with
  | nil => exact ⟨List.Pairwise.nil, fun i hi => absurd hi List.not_mem_nil⟩
  | cons m ms ih =>
    obtain ⟨hpair, hle⟩ := ih (fun m' hm' => hms m' (List.mem_cons_of_mem m hm')) hb.2
      fun m' hm' => hw m' (List.mem_cons_of_mem m hm')
    have hnext := nextId_le_step (hms m List.mem_cons_self) hb.1 (hw m List.mem_cons_self)
    have hassigned : ∀ i, assignedBy json4s nickname redis m = some i → _ := fun i hi =>
      nextId_of_assignedBy (hms m List.mem_cons_self) hb.1 hi
    rw [assigned]
    refine ⟨List.pairwise_append.mpr ⟨?_, hpair, fun i hi j hj => ?_⟩, fun i hi => ?_⟩
    · cases assignedBy json4s nickname redis m with
      | none => exact List.Pairwise.nil
      | some i => exact List.pairwise_singleton _ _
    · have hi' := (hassigned i (Option.mem_toList.mp hi)).2
      have hj' := hle j hj
      omega
    · rcases List.mem_append.mp hi with hi | hi
      · rw [(hassigned i (Option.mem_toList.mp hi)).1]
      · have hi' := hle i hi
        omega

theorem ordered_empty (nickname : String) : Ordered (stored json4s .empty nickname) := .none

theorem ordered_run {ms : List Message} (hms : ∀ m ∈ ms, m.AllSucceed)
    (hb : Meets (step json4s) (Below json4s) .empty ms) (nickname : String) :
    Ordered (stored json4s (run (step json4s) .empty ms) nickname) := by
  have hboth := hb.and_forall hms
  exact hboth.invariant (P := fun r => ∀ n, Ordered (stored json4s r n))
    (fun r m hr hm => ordered_step hm.2 hm.1 hr) ordered_empty nickname

/-- A run that is short enough does not reach the limit. -/
theorem meets_below {ms : List Message} {redis : Redis Text} {k : ℤ} (hms : ∀ m ∈ ms, m.AllSucceed)
    (hredis : ∀ nickname, 1 ≤ (stored json4s redis nickname).nextId.toInt ∧
      (stored json4s redis nickname).nextId.toInt ≤ k) (hk : k + ms.length < 2 ^ 31) :
    Meets (step json4s) (Below json4s) redis ms := by
  induction ms generalizing redis k with
  | nil => trivial
  | cons m ms ih =>
    rw [List.length_cons] at hk
    have hb : Below json4s redis m := fun nickname => by
      have hle := (hredis nickname).2
      omega
    refine ⟨hb, ih (k := k + 1) (fun m' hm' => hms m' (List.mem_cons_of_mem m hm'))
      (fun nickname => ?_) (by omega)⟩
    obtain ⟨hpos, hle⟩ := hredis nickname
    have hread : readTasks json4s redis m nickname = stored json4s redis nickname :=
      readTasks_eq (hms m List.mem_cons_self) _ _
    rcases stored_step_cases json4s redis m nickname with hw | ⟨-, heq⟩
    · obtain ⟨-, ⟨content, -, heq⟩ | ⟨ids, numbers, -, -, heq⟩ | ⟨ids, numbers, -, -,
      heq⟩ | ⟨-, heq⟩⟩ :=
        written_cases hw
      · have hnext := toInt_nextId_add (hb nickname)
        rw [heq, hread]
        show 1 ≤ ((stored json4s redis nickname).nextId + 1).toInt ∧
          ((stored json4s redis nickname).nextId + 1).toInt ≤ k + 1
        omega
      · rw [heq, hread]
        exact ⟨hpos, by show (stored json4s redis nickname).nextId.toInt ≤ k + 1; omega⟩
      · rw [heq, hread]
        exact ⟨hpos, by show (stored json4s redis nickname).nextId.toInt ≤ k + 1; omega⟩
      · rw [heq]
        have hone : Tasks.none.nextId.toInt = 1 := by decide
        omega
    · rw [heq]
      omega

/-! ### Commands with identifiers -/

theorem command_done {m : Message} {ids : List String} (h : words m.message = ".done" :: ids) :
    m.command = .done ids := by
  rw [Message.command, h]
  rfl

theorem command_remove {m : Message} {ids : List String} (h : words m.message = ".remove" :: ids) :
    m.command = .remove ids := by
  rw [Message.command, h]
  rfl

theorem writes_eq {m : Message} {nickname : String} {args : List String} (hm : m.AllSucceed)
    (hn : nickname ∈ allowedUserNames) (ha : args ≠ []) (list : Tasks) :
    writes m nickname args (some list) = some (nickname, list) := if_pos ⟨hn, ha, hm.succeeds 1⟩

theorem stored_of_written {redis : Redis Text} {m : Message} {nickname : String} {list : Tasks}
    (h : written json4s redis m = some (nickname, list)) :
    stored json4s (step json4s redis m) nickname = list := by
  rw [stored_step, h, afterWrite, if_pos rfl]

/-- Nothing at all is stored if an identifier is not a number. -/
theorem step_notNumeric (redis : Redis Text) {m : Message} {ids : List String}
    (h : words m.message = ".done" :: ids ∨ words m.message = ".remove" :: ids)
    (hids : toInts ids = .none) :
    step json4s redis m = redis := by
  have hget : Frame (fun s : Session Text => s.redis) (getTasks json4s m.sender .all) := fun s => by
    rw [getTasks_eq]
    rfl
  have hthrow : Frame (fun s : Session Text => s.redis)
    (getTasks json4s m.sender .all >>= fun tasks =>
      (throw .NumberFormatException : Gate Text Unit)) := .bind hget fun _ => .throw _
  have hcmd : Frame (fun s : Session Text => s.redis) (onMessage json4s m) := by
    rcases h with h | h
    · have hdone : onMessage json4s m = doneTasksCmd json4s m.sender m.sender ids := by
        rw [onMessage, command_done h]
      rw [hdone, doneTasksCmd, hids]
      exact .ite (.ite hthrow fun _ => rfl) (.pure _)
    · have hremove : onMessage json4s m = removeTasksCmd json4s m.sender m.sender ids := by
        rw [onMessage, command_remove h]
      rw [hremove, removeTasksCmd, hids]
      exact .ite (.ite hthrow fun _ => rfl) (.pure _)
  exact hcmd ⟨redis, m.outcomes, []⟩

/-- **The store keeps its guarantees**. -/
theorem taskStore (json4s : Codec Text) : TaskStore json4s where
  ordered _ hms hb nickname := ordered_run hms hb nickname
  fresh pre ms nickname hms hb hw := by
    have hb' := ((meets_append pre ms _).mp hb).2
    have hms' : ∀ m ∈ ms, m.AllSucceed := fun m hm => hms m (List.mem_append_right pre hm)
    exact (assigned_increasing hms' hb' hw).1.imp ne_of_lt
  done redis m ids numbers hm hs hwords hne hids := by
    have hw : written json4s redis m = some (m.sender, (stored json4s redis m.sender).markDone
      numbers) := by
      rw [written, command_done hwords]
      dsimp only
      rw [hids, readTasks_eq hm]
      exact writes_eq hm hs hne _
    rw [stored_of_written hw, markDone_eq]
  remove redis m ids numbers hm hs hwords hne hids := by
    have hw : written json4s redis m = some (m.sender, (stored json4s redis m.sender).remove
      numbers) := by
      rw [written, command_remove hwords]
      dsimp only
      rw [hids, readTasks_eq hm]
      exact writes_eq hm hs hne _
    rw [stored_of_written hw, Tasks.remove]
  notNumeric redis _ _ h hids := step_notNumeric redis h hids
  others redis m nickname hn := by
    rw [tasks_step]
    rcases hw : written json4s redis m with _ | ⟨n, list⟩
    · rfl
    · obtain ⟨rfl, -⟩ := written_cases hw
      exact write_of_ne redis.tasks hn list
  roundTrip tasks := by
    rw [json4s.parse_compact, Option.bind_some, parseTasks_renderTasks]

/-- Two nicknames: three tasks are added, one of them is done and removed,
and the other list is wiped. -/
def conversation : List Message :=
  [⟨"dmilith", ".add x", 0, []⟩, ⟨"tallica", ".add z", 0, []⟩, ⟨"dmilith", ".add y", 0, []⟩,
    ⟨"dmilith", ".done 1", 0, []⟩, ⟨"dmilith", ".remove 1", 0, []⟩, ⟨"tallica", ".wipe", 0, []⟩]

def afterMessages (k : ℕ) : Redis JValue := run (step Codec.identity) .empty (conversation.take k)

theorem allSucceed_conversation : ∀ m ∈ conversation, m.AllSucceed := by
  have hnone : ∀ m ∈ conversation, m.outcomes = [] := by decide
  intro m hm b hb
  rw [hnone m hm] at hb
  cases hb

theorem taskStore_conversation :
    (Ordered (stored Codec.identity (afterMessages 6) "dmilith") ∧
      Ordered (stored Codec.identity (afterMessages 6) "tallica")) ∧
    (assigned Codec.identity "dmilith" .empty conversation).Nodup ∧
    stored Codec.identity (afterMessages 4) "dmilith" =
      ⟨(stored Codec.identity (afterMessages 3) "dmilith").list.map fun task =>
        { task with done := task.done || decide (task.id ∈ [1]) },
        (stored Codec.identity (afterMessages 3) "dmilith").nextId⟩ ∧
    stored Codec.identity (afterMessages 5) "dmilith" =
      ⟨(stored Codec.identity (afterMessages 4) "dmilith").list.filter fun task => task.id ∉ [1],
        (stored Codec.identity (afterMessages 4) "dmilith").nextId⟩ ∧
    (afterMessages 6).tasks (redisKey "dmilith") = (afterMessages 5).tasks
      (redisKey "dmilith") := by
  have hfirst : (1 : BitVec 32).toInt ≤ 1 := by decide
  have hmeets : Meets (step Codec.identity) (Below Codec.identity) .empty conversation :=
    meets_below (k := 1) allSucceed_conversation (fun nickname =>
      ⟨(ordered_empty nickname).pos, hfirst⟩) (by decide)
  have hwipe : ∀ m ∈ conversation, ¬ m.Wipes "dmilith" := by
    unfold Message.Wipes
    decide
  refine ⟨⟨(taskStore Codec.identity).ordered _ allSucceed_conversation hmeets _,
    (taskStore Codec.identity).ordered _ allSucceed_conversation hmeets _⟩, ?_, ?_, ?_, ?_⟩
  · exact (taskStore Codec.identity).fresh [] conversation "dmilith"
      allSucceed_conversation hmeets hwipe
  · exact (taskStore Codec.identity).done (afterMessages 3) ⟨"dmilith", ".done 1", 0, []⟩ ["1"] [1]
      (allSucceed_conversation _ (by simp [conversation])) (by decide) (by decide)
      (by decide) (by decide)
  · exact (taskStore Codec.identity).remove (afterMessages 4) ⟨"dmilith", ".remove 1",
      0, []⟩ ["1"] [1]
      (allSucceed_conversation _ (by simp [conversation])) (by decide) (by decide)
      (by decide) (by decide)
  · have hlast : afterMessages 6 = step Codec.identity (afterMessages 5) ⟨"tallica",
      ".wipe", 0, []⟩ := rfl
    rw [hlast]
    exact (taskStore Codec.identity).others (afterMessages 5) ⟨"tallica", ".wipe", 0, []⟩
      "dmilith" (by decide)

end ServeD.Notifications.IrcTasks
