import ServeD.Notifications.IrcStore

/-! # Tasks and failed reads

`getTasks` makes an empty list of every exception, and the commands that change a list write it
back: a `get` that fails before a `set` that succeeds loses the list, and the numbering begins
again.

No task is lost in a run, but for `.remove` and `.wipe`, and no numbering goes back, exactly when
every such pair of operations finds nothing to lose and no numbering is at its limit
(`meets_safe_iff`). -/

namespace ServeD.Notifications.IrcTasks

open ServeD.Lib.Json ServeD.Lib.Runs

variable {Text : Type} (json4s : Codec Text)

/-! ### What is not to be lost -/

/-- The same task, which may be done by now. -/
def Task.Same (task task' : Task) : Prop :=
  task'.id = task.id ∧ task'.content = task.content ∧ task'.date = task.date

/-- The tasks of a list are still there but for those removed,
and the next identifier is not smaller. -/
def Tasks.Keeps (removed : List (BitVec 32)) (tasks tasks' : Tasks) : Prop :=
  (∀ task ∈ tasks.list, task.id ∈ removed ∨ ∃ task' ∈ tasks'.list, task.Same task') ∧
    tasks.nextId.toInt ≤ tasks'.nextId.toInt

/-- The identifiers that a message removes from the list of a nickname. -/
def Message.removes (m : Message) (nickname : String) : List (BitVec 32) :=
  match m.command with
  | .remove ids => if m.sender = nickname then (toInts ids).getD [] else []
  | _ => []

/-- A message loses no task of a list that it does not wipe, and does not set its numbering back. -/
def Safe (redis : Redis Text) (m : Message) : Prop :=
  ∀ nickname, ¬ m.Wipes nickname →
    (stored json4s redis nickname).Keeps (m.removes nickname)
    (stored json4s (step json4s redis m) nickname)

/-- A command that could not read the list, but writes one, finds nothing to lose there; and a task
is not added at the limit. -/
def Harmless (redis : Redis Text) (m : Message) : Prop :=
  match m.command with
  | .add nickname content => nickname ∈ allowedUserNames → content ≠ [] → m.succeeds 1 →
    if m.succeeds 0 then (stored json4s redis nickname).nextId.toInt ≠ 2 ^ 31 - 1
    else (∀ task ∈ (stored json4s redis nickname).list,
        task.id = 1 ∧ task.content = " ".intercalate content ∧ task.date = m.timeStamp) ∧
      (stored json4s redis nickname).nextId.toInt ≤ 2
  | .done ids => m.sender ∈ allowedUserNames → ids ≠ [] → (toInts ids).isSome → m.succeeds 1 →
    m.succeeds 0 = false →
      (stored json4s redis m.sender).list = [] ∧ (stored json4s redis m.sender).nextId.toInt ≤ 1
  | .remove ids => m.sender ∈ allowedUserNames → ids ≠ [] → (toInts ids).isSome → m.succeeds 1 →
    m.succeeds 0 = false →
      (∀ task ∈ (stored json4s redis m.sender).list, task.id ∈ (toInts ids).getD []) ∧
        (stored json4s redis m.sender).nextId.toInt ≤ 1
  | _ => True

variable {json4s}

/-! ### Lists -/

theorem Task.Same.refl (task : Task) : task.Same task := ⟨rfl, rfl, rfl⟩

section Lists

variable {removed ids : List (BitVec 32)} {tasks : Tasks} {content : List String}
    {timeStamp : BitVec 64}

theorem Tasks.Keeps.refl (removed : List (BitVec 32)) (tasks : Tasks) : tasks.Keeps removed tasks :=
  ⟨fun task ht => .inr ⟨task, ht, .refl task⟩, le_refl _⟩

theorem keeps_markDone : tasks.Keeps removed (tasks.markDone ids) := by
  refine ⟨fun task ht => .inr ⟨{ task with done := task.done || decide (task.id ∈ ids) }, ?_,
    rfl, rfl, rfl⟩, le_refl _⟩
  rw [markDone_eq]
  exact List.mem_map.mpr ⟨task, ht, rfl⟩

theorem keeps_remove : tasks.Keeps ids (tasks.remove ids) := by
  refine ⟨fun task ht => ?_, le_refl _⟩
  by_cases hid : task.id ∈ ids
  · exact .inl hid
  · exact .inr ⟨task, List.mem_filter.mpr ⟨ht, by simpa using hid⟩, .refl task⟩

/-- The next identifier wraps around at the limit. -/
theorem keeps_add_iff :
    tasks.Keeps removed (tasks.add content timeStamp) ↔ tasks.nextId.toInt ≠ 2 ^ 31 - 1 := by
  have hhi : tasks.nextId.toInt < 2 ^ 31 := BitVec.toInt_lt
  constructor
  · rintro ⟨-, hle⟩ hmax
    have hnext : tasks.nextId = BitVec.ofInt 32 (2 ^ 31 - 1) := by rw [← hmax, BitVec.ofInt_toInt]
    have hwrap : ((tasks.add content timeStamp).nextId).toInt = -2 ^ 31 := by
      show (tasks.nextId + 1).toInt = -2 ^ 31
      rw [hnext]
      decide
    omega
  · intro hne
    refine ⟨fun task ht => .inr ⟨task, List.mem_append_left _ ht, .refl task⟩, ?_⟩
    show _ ≤ (tasks.nextId + 1).toInt
    rw [toInt_nextId_add (by omega)]
    omega

/-- The list begins again with one task. -/
theorem keeps_none_add_iff :
    tasks.Keeps [] (Tasks.none.add content timeStamp) ↔
      (∀ task ∈ tasks.list, task.id = 1 ∧ task.content = " ".intercalate content ∧
        task.date = timeStamp) ∧
        tasks.nextId.toInt ≤ 2 := by
  have hnext : (Tasks.none.add content timeStamp).nextId.toInt = 2 := by
    show ((1 : BitVec 32) + 1).toInt = 2
    decide
  have hlist : (Tasks.none.add content timeStamp).list =
    [⟨1, " ".intercalate content, timeStamp, false⟩] := rfl
  unfold Tasks.Keeps
  rw [hnext, hlist]
  refine and_congr_left fun _ => forall₂_congr fun task _ => ?_
  rw [or_iff_right List.not_mem_nil]
  constructor
  · rintro ⟨task', ht', hid, hcontent, hdate⟩
    obtain rfl := List.mem_singleton.mp ht'
    exact ⟨hid.symm, hcontent.symm, hdate.symm⟩
  · rintro ⟨hid, hcontent, hdate⟩
    exact ⟨_, List.mem_singleton_self _, hid.symm, hcontent.symm, hdate.symm⟩

/-- Nothing is left but the first number. -/
theorem keeps_none_iff :
    tasks.Keeps removed Tasks.none ↔ (∀ task ∈ tasks.list, task.id ∈ removed) ∧
      tasks.nextId.toInt ≤ 1 := by
  have hnext : Tasks.none.nextId.toInt = 1 := by decide
  unfold Tasks.Keeps
  rw [hnext]
  refine and_congr_left fun _ => forall₂_congr fun task _ => or_iff_left ?_
  rintro ⟨task', ht', -⟩
  exact List.not_mem_nil ht'

theorem none_markDone : Tasks.none.markDone ids = Tasks.none := rfl

theorem none_remove : Tasks.none.remove ids = Tasks.none := rfl

end Lists

/-! ### One message -/

/-- Only the list that a message is about can change. -/
theorem safe_iff_target {redis : Redis Text} {m : Message} :
    Safe json4s redis m ↔
      (¬ m.Wipes m.target → (stored json4s redis m.target).Keeps (m.removes m.target)
        (stored json4s (step json4s redis m) m.target)) := by
  refine ⟨fun h => h m.target, fun h nickname hw => ?_⟩
  by_cases hn : nickname = m.target
  · subst hn
    exact h hw
  · rcases stored_step_cases json4s redis m nickname with hwritten | ⟨-, heq⟩
    · exact absurd (written_cases hwritten).1 hn
    · rw [heq]
      exact .refl _ _

/-- A list that a command with arguments may write. -/
theorem stored_of_writes {redis : Redis Text} {m : Message} {nickname : String} {args : List String}
    {list : Option Tasks} (h : written json4s redis m = writes m nickname args list) :
    stored json4s (step json4s redis m) nickname =
      if nickname ∈ allowedUserNames ∧ args ≠ [] ∧ m.succeeds 1 then
        list.getD (stored json4s redis nickname)
      else stored json4s redis nickname := by
  rw [stored_step, h, writes]
  split_ifs
  · rcases list with _ | list
    · rfl
    · exact if_pos rfl
  · rfl

section Step

variable {redis : Redis Text} {m : Message}

theorem safe_iff_of_add {nickname : String} {content : List String}
    (hc : m.command = .add nickname content) :
    Safe json4s redis m ↔ Harmless json4s redis m := by
  have htarget : m.target = nickname := by rw [Message.target, hc]
  have hremoves : m.removes nickname = [] := by rw [Message.removes, hc]
  have hwipes : ¬ m.Wipes nickname := by rw [Message.Wipes, hc]; exact fun h => by cases h.1
  have hw : written json4s redis m = writes m nickname content
      (some ((readTasks json4s redis m nickname).add content m.timeStamp)) := by rw [written, hc]
  rw [safe_iff_target, htarget, hremoves, imp_iff_right hwipes, stored_of_writes hw, Harmless, hc]
  dsimp only
  by_cases hwritten : nickname ∈ allowedUserNames ∧ content ≠ [] ∧ m.succeeds 1
  · rw [if_pos hwritten, imp_iff_right hwritten.1, imp_iff_right hwritten.2.1,
    imp_iff_right hwritten.2.2,
      Option.getD_some, readTasks]
    by_cases hread : m.succeeds 0
    · rw [if_pos hread, if_pos hread, keeps_add_iff]
    · rw [if_neg hread, if_neg hread, keeps_none_add_iff]
  · rw [if_neg hwritten]
    exact iff_of_true (.refl _ _) fun h₁ h₂ h₃ => absurd ⟨h₁, h₂, h₃⟩ hwritten

/-- The commands with identifiers: a list that was read is kept, and one that was not is lost. -/
theorem keeps_change_iff {ids : List String} {removed : List (BitVec 32)}
    {change : Tasks → List (BitVec 32) → Tasks}
    (hnone : ∀ numbers, change Tasks.none numbers = Tasks.none)
    (hkeeps : ∀ numbers, toInts ids = some numbers →
      (stored json4s redis m.sender).Keeps removed (change (stored json4s redis m.sender) numbers))
    (hw : written json4s redis m = writes m m.sender ids
      ((toInts ids).map (change (readTasks json4s redis m m.sender)))) :
    (stored json4s redis m.sender).Keeps removed (stored json4s (step json4s redis m) m.sender) ↔
      (m.sender ∈ allowedUserNames → ids ≠ [] → (toInts ids).isSome → m.succeeds 1 →
        m.succeeds 0 = false →
        (∀ task ∈ (stored json4s redis m.sender).list, task.id ∈ removed) ∧
          (stored json4s redis m.sender).nextId.toInt ≤ 1) := by
  rw [stored_of_writes hw]
  by_cases hwritten : m.sender ∈ allowedUserNames ∧ ids ≠ [] ∧ m.succeeds 1
  · rw [if_pos hwritten, imp_iff_right hwritten.1, imp_iff_right hwritten.2.1,
    imp_iff_right hwritten.2.2, readTasks]
    rcases hids : toInts ids with _ | numbers
    · exact iff_of_true (.refl _ _) fun h => by cases h
    · have hsome : (some numbers).isSome = true := rfl
      rw [imp_iff_right hsome, Option.map_some, Option.getD_some]
      rcases m.succeeds 0 with _ | _
      · rw [if_neg Bool.false_ne_true, hnone, keeps_none_iff, imp_iff_right rfl]
      · rw [if_pos rfl]
        exact iff_of_true (hkeeps numbers hids) fun h => by cases h
  · rw [if_neg hwritten]
    exact iff_of_true (.refl _ _) fun h₁ h₂ _ h₃ => absurd ⟨h₁, h₂, h₃⟩ hwritten

theorem safe_iff_of_done {ids : List String} (hc : m.command = .done ids) :
    Safe json4s redis m ↔ Harmless json4s redis m := by
  have htarget : m.target = m.sender := by rw [Message.target, hc]
  have hremoves : m.removes m.sender = [] := by rw [Message.removes, hc]
  have hwipes : ¬ m.Wipes m.sender := by rw [Message.Wipes, hc]; exact fun h => by cases h.1
  have hw : written json4s redis m = writes m m.sender ids
      ((toInts ids).map (readTasks json4s redis m m.sender).markDone) := by rw [written, hc]
  rw [safe_iff_target, htarget, hremoves, imp_iff_right hwipes, Harmless, hc,
    keeps_change_iff (fun _ => none_markDone) (fun _ _ => keeps_markDone) hw]
  simp only [List.not_mem_nil, List.eq_nil_iff_forall_not_mem]

theorem safe_iff_of_remove {ids : List String} (hc : m.command = .remove ids) :
    Safe json4s redis m ↔ Harmless json4s redis m := by
  have htarget : m.target = m.sender := by rw [Message.target, hc]
  have hremoves : m.removes m.sender = (toInts ids).getD [] := by
    rw [Message.removes, hc]
    exact if_pos rfl
  have hwipes : ¬ m.Wipes m.sender := by rw [Message.Wipes, hc]; exact fun h => by cases h.1
  have hw : written json4s redis m = writes m m.sender ids
      ((toInts ids).map (readTasks json4s redis m m.sender).remove) := by rw [written, hc]
  rw [safe_iff_target, htarget, hremoves, imp_iff_right hwipes, Harmless, hc,
    keeps_change_iff (fun _ => none_remove) (fun numbers hids => ?_) hw]
  rw [hids]
  exact keeps_remove

/-- The list is not written. -/
theorem safe_of_not_written (h : written json4s redis m = .none) : Safe json4s redis m := by
  rw [safe_iff_target]
  intro _
  rw [stored_step, h]
  exact .refl _ _

/-- **One message**. -/
theorem safe_iff_harmless (json4s : Codec Text) (redis : Redis Text) (m : Message) :
    Safe json4s redis m ↔ Harmless json4s redis m := by
  rcases hc : m.command with _ | _ | ⟨nickname, content⟩ | ids | ids | _ |
    ⟨nickname, state, paginate⟩ | _
  case add => exact safe_iff_of_add hc
  case done => exact safe_iff_of_done hc
  case remove => exact safe_iff_of_remove hc
  case wipe =>
    have htarget : m.target = m.sender := by rw [Message.target, hc]
    rw [safe_iff_target, htarget, Harmless, hc]
    exact iff_of_true (fun h => absurd ⟨hc, rfl⟩ h) trivial
  all_goals
    have hw : written json4s redis m = .none := by rw [written, hc]
    rw [Harmless, hc]
    exact iff_of_true (safe_of_not_written hw) trivial

end Step

/-- **No task is lost in a run, and no numbering goes back**,
exactly when every message finds nothing to lose. -/
theorem meets_safe_iff (json4s : Codec Text) (redis : Redis Text) (ms : List Message) :
    Meets (step json4s) (Safe json4s) redis ms ↔ Meets (step json4s) (Harmless json4s) redis ms :=
  ⟨fun h => h.mono fun r m => (safe_iff_harmless json4s r m).mp,
    fun h => h.mono fun r m => (safe_iff_harmless json4s r m).mpr⟩

/-- A stored list with one task. -/
def oneTask : Redis JValue :=
  ⟨write Codec.identity Redis.empty.tasks (some ("dmilith", ⟨[⟨1, "x", 0, false⟩], 2⟩)),
    fun _ => .none⟩

theorem stored_oneTask : stored Codec.identity oneTask "dmilith" = ⟨[⟨1, "x", 0, false⟩], 2⟩ := by
  have htasks : oneTask.tasks = write Codec.identity Redis.empty.tasks
    (some ("dmilith", ⟨[⟨1, "x", 0, false⟩], 2⟩)) := rfl
  rw [stored_write htasks, afterWrite, if_pos rfl]

/-- `.done 7` loses the task, if the list cannot be read. -/
theorem not_safe_done :
    ¬ Meets (step Codec.identity) (Safe Codec.identity) oneTask
      [⟨"dmilith", ".done 7", 0, [false, true]⟩] := by
  have hcommand : Message.command ⟨"dmilith", ".done 7", 0, [false, true]⟩ = .done ["7"] := by
    decide
  rintro ⟨hsafe, -⟩
  have hharmless := (safe_iff_harmless _ _ _).mp hsafe
  rw [Harmless, hcommand] at hharmless
  have hlost := (hharmless (by decide) (by decide) (by decide) (by decide) (by decide)).1
  rw [stored_oneTask] at hlost
  cases hlost

end ServeD.Notifications.IrcTasks
