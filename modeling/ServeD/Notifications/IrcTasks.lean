import Mathlib.Data.List.DropRight
import Mathlib.Logic.Function.Basic
import ServeD.Lib.Exceptions
import ServeD.Lib.Integers
import ServeD.Lib.Json

/-! # The task lists of the IRC gate

`SvdIRCGate.onMessage`, for messages that begin with a dot: the commands read the whole list of a
nickname from Redis, and write the changed one back. Every `get` and `set` may fail, and then an
exception is raised, which `getTasks` turns into an empty list.

`tasks_step` says what one message does to the lists, and is all that is used of the commands later.
-/

namespace ServeD.Notifications.IrcTasks

open ServeD.Lib.Exceptions ServeD.Lib.Integers ServeD.Lib.Json

/-! ### Tasks -/

structure Task where
  id : BitVec 32
  content : String
  date : BitVec 64
  done : Bool
  deriving DecidableEq

structure Tasks where
  list : List Task
  nextId : BitVec 32
  deriving DecidableEq

/-- `Tasks(list = Nil, nextId = 1)`. -/
def Tasks.none : Tasks := ⟨[], 1⟩

def renderTask (task : Task) : JValue :=
  .object [("id", .int task.id.toInt), ("content", .string task.content),
    ("date", .int task.date.toInt), ("done", .bool task.done)]

def renderTasks (tasks : Tasks) : JValue :=
  .object [("list", .array (tasks.list.map renderTask)), ("nextId", .int tasks.nextId.toInt)]

def parseTask (task : JValue) : Option Task := do
  let id ← (task.field "id").extractInt 32
  let content ← (task.field "content").extractString
  let date ← (task.field "date").extractInt 64
  let done ← (task.field "done").extractBoolean
  return ⟨id, content, date, done⟩

inductive TaskState where
  | open
  | finished
  | all
  deriving DecidableEq, Repr

def TaskState.toString : TaskState → String
  | .open => "open"
  | .finished => "finished"
  | .all => "all"

/-- `parseTasks(json)`. -/
def parseTasks (tasks : JValue) : Option Tasks := do
  let list ← (tasks.field "list").children.mapM parseTask
  let nextId ← (tasks.field "nextId").extractInt 32
  return ⟨list, nextId⟩

/-- `parseTasks(json, finished)`. -/
def parseTasksDone (tasks : JValue) (finished : Bool) : Option Tasks := do
  let children ← (tasks.field "list").children.filterMapM fun task => do
    let done ← (task.field "done").extractBoolean
    return if done = finished then some task else .none
  let list ← children.mapM parseTask
  let nextId ← (tasks.field "nextId").extractInt 32
  return ⟨list, nextId⟩

/-! ### Redis -/

variable {Text : Type}

/-- The keys of the lists and those of the pages are different, so they have maps of their own. -/
structure Redis (Text : Type) where
  tasks : String → Option Text
  pages : String → Option String

def Redis.empty : Redis Text := ⟨fun _ => .none, fun _ => .none⟩

def redisKey (nickname : String) : String := nickname ++ ".tasks"

def pageKey (nickname : String) : String := nickname ++ ".tasks.page"

inductive Failure where
  | JedisException
  | NumberFormatException
  | parseException
  | IndexOutOfBoundsException
  deriving DecidableEq, Repr

/-- What a message works on: Redis, whether the next operations of Redis will succeed, and what was
sent to the channel. -/
structure Session (Text : Type) where
  redis : Redis Text
  outcomes : List Bool
  sent : List String

abbrev Gate (Text : Type) := EStateM Failure (Session Text)

/-- `withJedis`: an operation that fails changes nothing. -/
def withJedis {α : Type} (f : Redis Text → α × Redis Text) : Gate Text α := fun s =>
  let rest := s.outcomes.tail
  if s.outcomes.headD true then
    .ok (f s.redis).1 { s with redis := (f s.redis).2, outcomes := rest }
  else .error .JedisException { s with outcomes := rest }

def sendMessage (message : String) : Gate Text Unit :=
  modify fun s => { s with sent := s.sent ++ [message] }

variable (json4s : Codec Text)

/-- The value at a key, parsed. -/
def parseStored (state : TaskState) (stored : Option Text) : Option Tasks := do
  let text ← stored
  let json ← json4s.parse text
  match state with
  | .finished => parseTasksDone json true
  | .open => parseTasksDone json false
  | .all => parseTasks json

def getTasks (nickname : String) (state : TaskState) : Gate Text Tasks :=
  tryCatch (do
    let stored ← withJedis fun redis => (redis.tasks (redisKey nickname), redis)
    match parseStored json4s state stored with
    | some tasks => return tasks
    | .none => throw .parseException) fun _ => return Tasks.none

def setTasks (nickname : String) (tasks : Tasks) : Gate Text Bool :=
  tryCatch (do
    withJedis fun redis => ((), { redis with
      tasks := Function.update redis.tasks (redisKey nickname)
        (some (json4s.compact (renderTasks tasks))) })
    return true) fun _ => return false

def getTasksPage (nickname : String) : Gate Text ℤ :=
  tryCatch (do
    let page ← withJedis fun redis => (redis.pages (pageKey nickname), redis)
    match page.bind parseInt with
    | some page => return page
    | .none => throw .NumberFormatException) fun _ => return 0

def setTasksPage (nickname : String) (page : ℤ) : Gate Text Bool :=
  tryCatch (do
    withJedis fun redis => ((), { redis with
      pages := Function.update redis.pages (pageKey nickname) (some (toString page)) })
    return true) fun _ => return false

/-! ### Commands -/

def allowedUserNames : List String := ["dmilith", "tallica", "wick3d"]

def tasksPerPage : ℕ := 5

inductive TasksPagination where
  | head
  | tail
  | next
  | prev
  deriving DecidableEq, Repr

/-- `list.grouped(n).toList`. -/
def grouped {α : Type} (n : ℕ) (list : List α) : List (List α) :=
  (List.range ((list.length + n - 1) / n)).map fun i => (list.drop (i * n)).take n

def limit (x min max : ℤ) : ℤ := if x < min then min else if x > max then max else x

/-- `groupedTasks(page)`. -/
def pageAt (groupedTasks : List (List Task)) (page : ℤ) : Gate Text (List Task) :=
  match groupedTasks[page.toNat]? with
  | some tasks => return tasks
  | .none => throw .IndexOutOfBoundsException

/-- `x + 1` and so on: the sum of two numbers of 32 bits. -/
def plus (x y : ℤ) : ℤ := (x + y).bmod (2 ^ 32)

def listTasksCmd (perPage : ℕ) (sender nickname : String) (state : TaskState)
    (paginate : TasksPagination) :
    Gate Text Unit := do
  if nickname ∈ allowedUserNames then
    let tasks ← getTasks json4s nickname state
    if tasks.list.length > 0 then
      let forWhom := if sender ≠ nickname then "for " ++ nickname ++ " " else ""
      let groupedTasks := grouped perPage tasks.list
      let lastPage : ℤ := groupedTasks.length - 1
      let nextPage := limit (plus (← getTasksPage nickname) 1) 0 lastPage
      let prevPage := limit (plus (← getTasksPage nickname) (-1)) 0 lastPage
      let page := match paginate with
        | .head => 0
        | .tail => lastPage
        | .next => nextPage
        | .prev => prevPage
      let _ ← setTasksPage nickname page
      let tasksToShow ← pageAt groupedTasks page
      let currentPage ← getTasksPage nickname
      sendMessage (sender ++ ": Listing " ++ state.toString ++ " tasks " ++ forWhom ++ "(page " ++
        toString (plus currentPage 1) ++ " of " ++ toString (plus lastPage 1) ++ ").")
      tasksToShow.forM fun task =>
        sendMessage (sender ++ ": #" ++ toString task.id.toInt ++ " → " ++ task.content)
    else
      let forWhom := if sender ≠ nickname then "for " ++ nickname else "sire"
      sendMessage (sender ++ ": No " ++ state.toString ++ " tasks " ++ forWhom ++ ".")

/-- The list with a new task. -/
def Tasks.add (tasks : Tasks) (content : List String) (timeStamp : BitVec 64) : Tasks :=
  ⟨tasks.list ++ [⟨tasks.nextId, " ".intercalate content, timeStamp, false⟩], tasks.nextId + 1⟩

/-- The list with some tasks done. -/
def Tasks.markDone (tasks : Tasks) (ids : List (BitVec 32)) : Tasks :=
  ⟨tasks.list.map fun task => if task.id ∈ ids then ⟨task.id, task.content, task.date,
    true⟩ else task, tasks.nextId⟩

/-- The list without some tasks. -/
def Tasks.remove (tasks : Tasks) (ids : List (BitVec 32)) : Tasks :=
  ⟨tasks.list.filter fun task => task.id ∉ ids, tasks.nextId⟩

/-- `for nickname`, if the list is not the sender's. -/
def append (sender nickname : String) : String :=
  if sender ≠ nickname then " for " ++ nickname ++ "." else "."

def addTaskCmd (sender nickname : String) (content : List String) (timeStamp : BitVec 64) :
    Gate Text Unit := do
  if nickname ∈ allowedUserNames then
    if content.length > 0 then
      let tasks ← getTasks json4s nickname .all
      if ← setTasks json4s nickname (tasks.add content timeStamp) then
        sendMessage (sender ++ ": Added a new task #" ++ toString tasks.nextId.toInt ++
          append sender nickname)
      else
        sendMessage
            (sender ++ ": Unfortunately, I can't add task to the list. Please try again later.")
    else
      sendMessage (sender ++ ": You need to specify task's content.")

/-- `ids.map { _.toInt }`. -/
def toInts (ids : List String) : Option (List (BitVec 32)) :=
  ids.mapM fun id => (parseInt id).map (BitVec.ofInt 32)

/-- `tasksIds.map("#" + _).mkString(", ")`. -/
def showIds (tasksIds : List (BitVec 32)) : String :=
  ", ".intercalate (tasksIds.map fun id => "#" ++ toString id.toInt)

def doneTasksCmd (sender nickname : String) (ids : List String) : Gate Text Unit := do
  if nickname ∈ allowedUserNames then
    if ids.length > 0 then
      let tasks ← getTasks json4s nickname .all
      match toInts ids with
      | .none => throw .NumberFormatException
      | some tasksIds =>
        if ← setTasks json4s nickname (tasks.markDone tasksIds) then
          let plural := if tasksIds.length > 1 then "s" else ""
          sendMessage (sender ++ ": Task" ++ plural ++ " " ++ showIds tasksIds ++
            " marked as done" ++
            append sender nickname)
        else
          sendMessage
              (sender ++ ": Unfortunately, I can't mark tasks as done. Please try again later.")
    else
      sendMessage (sender ++ ": You need to specify at least one task's ID.")

def removeTasksCmd (sender nickname : String) (ids : List String) : Gate Text Unit := do
  if nickname ∈ allowedUserNames then
    if ids.length > 0 then
      let tasks ← getTasks json4s nickname .all
      match toInts ids with
      | .none => throw .NumberFormatException
      | some tasksIds =>
        if ← setTasks json4s nickname (tasks.remove tasksIds) then
          sendMessage (sender ++ ": Tasks (" ++ showIds tasksIds ++ ") removed" ++
            append sender nickname)
        else
          sendMessage (sender ++ ": Unfortunately, I can't remove tasks. Please try again later.")
    else
      sendMessage (sender ++ ": You need to specify at least one task's ID.")

def wipeTasksCmd (sender nickname : String) : Gate Text Unit := do
  if nickname ∈ allowedUserNames then
    if ← setTasks json4s nickname Tasks.none then
      sendMessage (sender ++ ": Tasks wiped" ++ append sender nickname)
    else
      sendMessage (sender ++ ": Unfortunately, I can't wipe tasks. Please try again later.")

/-! ### Messages -/

/-- `message.split(" ").toList`. -/
def words (message : String) : List String :=
  ((message.toList.splitOn ' ').map String.ofList).rdropWhile (· == "")

inductive Command where
  | help
  | ping
  | add (nickname : String) (content : List String)
  | done (ids : List String)
  | remove (ids : List String)
  | wipe
  | list (nickname : String) (state : TaskState) (paginate : TasksPagination)
  | other
  deriving DecidableEq

/-- The command of a message. -/
def command (sender : String) : List String → Command
  | [".help"] => .help
  | [".ping"] => .ping
  | ".add" :: content => .add sender content
  | ".done" :: ids => .done ids
  | [".finished"] => .list sender .finished .tail
  | [".finished", nickname] => .list nickname .finished .tail
  | ".remove" :: ids => .remove ids
  | ".task" :: nickname :: content => .add nickname content
  | [".tasks"] => .list sender .open .tail
  | [".tasks", nickname] => .list nickname .open .tail
  | [".wipe"] => .wipe
  | [".head"] => .list sender .open .head
  | [".tail"] => .list sender .open .tail
  | [".next"] => .list sender .open .next
  | [".prev"] => .list sender .open .prev
  | _ => .other

/-- A message of a sender, the time, and which operations of Redis succeed while it is handled. -/
structure Message where
  sender : String
  message : String
  timeStamp : BitVec 64
  outcomes : List Bool

def Message.command (m : Message) : Command := IrcTasks.command m.sender (words m.message)

/-- `onMessage`. -/
def onMessage (m : Message) : Gate Text Unit :=
  match m.command with
  | .help => sendMessage (m.sender ++
      ": Available commands: .(add|done|finished|head|next|ping|prev|remove|tail|task|tasks|wipe)")
  | .ping => sendMessage (m.sender ++ ": pong")
  | .add nickname content => addTaskCmd json4s m.sender nickname content m.timeStamp
  | .done ids => doneTasksCmd json4s m.sender m.sender ids
  | .remove ids => removeTasksCmd json4s m.sender m.sender ids
  | .wipe => wipeTasksCmd json4s m.sender m.sender
  | .list nickname state paginate => listTasksCmd json4s tasksPerPage m.sender nickname
    state paginate
  | .other => pure ()

/-- Redis after a message. -/
def step (redis : Redis Text) (m : Message) : Redis Text :=
  (final (onMessage json4s m ⟨redis, m.outcomes, []⟩)).redis

/-! ### What a message does to the lists -/

/-- The list of a nickname, as it is read. -/
def stored (redis : Redis Text) (nickname : String) : Tasks :=
  (parseStored json4s .all (redis.tasks (redisKey nickname))).getD Tasks.none

/-- Whether an operation of Redis succeeds, counted from 0. -/
def Message.succeeds (m : Message) (i : ℕ) : Bool := m.outcomes.getD i true

/-- The list that a command begins with: none if it cannot be read. -/
def readTasks (redis : Redis Text) (m : Message) (nickname : String) : Tasks :=
  if m.succeeds 0 then stored json4s redis nickname else Tasks.none

/-- The list that a command with arguments writes: the nickname has to be allowed, there has to be
an argument, and the second operation of Redis has to succeed. -/
def writes (m : Message) (nickname : String) (args : List String) (list : Option Tasks) :
    Option (String × Tasks) :=
  if nickname ∈ allowedUserNames ∧ args ≠ [] ∧ m.succeeds 1 then list.map fun l =>
    (nickname, l) else .none

/-- The list that is written, if one is, and the nickname. -/
def written (redis : Redis Text) (m : Message) : Option (String × Tasks) :=
  match m.command with
  | .add nickname content =>
    writes m nickname content (some ((readTasks json4s redis m nickname).add content m.timeStamp))
  | .done ids =>
    writes m m.sender ids ((toInts ids).map (readTasks json4s redis m m.sender).markDone)
  | .remove ids =>
    writes m m.sender ids ((toInts ids).map (readTasks json4s redis m m.sender).remove)
  | .wipe => if m.sender ∈ allowedUserNames ∧
    m.succeeds 0 then some (m.sender, Tasks.none) else .none
  | _ => .none

/-- The lists after one of them is written. -/
def write (tasks : String → Option Text) : Option (String × Tasks) → String → Option Text
  | .none => tasks
  | some (nickname, list) =>
    Function.update tasks (redisKey nickname) (some (json4s.compact (renderTasks list)))

/-! ### Reading back -/

theorem parseTask_renderTask (task : Task) : parseTask (renderTask task) = some task := by
  have h : parseTask (renderTask task) =
    some ⟨BitVec.ofInt 32 task.id.toInt, task.content, BitVec.ofInt 64 task.date.toInt,
      task.done⟩ := rfl
  rw [h, BitVec.ofInt_toInt, BitVec.ofInt_toInt]

/-- **A list is read back from its rendering**. -/
theorem parseTasks_renderTasks (tasks : Tasks) : parseTasks (renderTasks tasks) = some tasks := by
  have hlist : (tasks.list.map renderTask).mapM parseTask = some tasks.list := by
    induction tasks.list with
    | nil => rfl
    | cons task list ih =>
      rw [List.map_cons, List.mapM_cons, parseTask_renderTask, ih]
      rfl
  have hchildren : ((renderTasks tasks).field "list").children = tasks.list.map renderTask := rfl
  have hnextId : ((renderTasks tasks).field "nextId").extractInt 32 =
    some (BitVec.ofInt 32 tasks.nextId.toInt) := rfl
  rw [parseTasks, hchildren, hlist, hnextId, BitVec.ofInt_toInt]
  rfl

variable {json4s}

theorem parseStored_compact (tasks : Tasks) :
    parseStored json4s .all (some (json4s.compact (renderTasks tasks))) = some tasks := by
  show (json4s.parse (json4s.compact (renderTasks tasks))).bind parseTasks = _
  rw [json4s.parse_compact, Option.bind_some, parseTasks_renderTasks]

theorem redisKey_inj {a b : String} : redisKey a = redisKey b ↔ a = b := by
  refine ⟨fun h => ?_, fun h => by rw [h]⟩
  have hlist := congrArg String.toList h
  rw [redisKey, redisKey, String.toList_append, String.toList_append] at hlist
  exact String.toList_inj.mp (List.append_cancel_right hlist)

theorem write_self (tasks : String → Option Text) (nickname : String) (list : Tasks) :
    write json4s tasks (some (nickname, list)) (redisKey nickname) =
      some (json4s.compact (renderTasks list)) := by
  rw [write, Function.update_self]

/-- The other lists are not written. -/
theorem write_of_ne (tasks : String → Option Text) {n nickname : String} (hn : nickname ≠ n)
    (list : Tasks) :
    write json4s tasks (some (n, list)) (redisKey nickname) = tasks (redisKey nickname) := by
  rw [write, Function.update_of_ne fun hk => hn (redisKey_inj.mp hk)]

theorem stored_of_tasks_eq {r r' : Redis Text} {nickname : String}
    (h : r'.tasks (redisKey nickname) = r.tasks (redisKey nickname)) :
    stored json4s r' nickname = stored json4s r nickname := by rw [stored, stored, h]

/-- A list after one is written, where `old` is the one before. -/
def afterWrite (nickname : String) (old : Tasks) : Option (String × Tasks) → Tasks
  | .none => old
  | some (n, list) => if nickname = n then list else old

/-- The list that is written is the one that is read afterwards, and the others are as before. -/
theorem stored_write {r r' : Redis Text} {w : Option (String × Tasks)}
    (h : r'.tasks = write json4s r.tasks w) (nickname : String) :
    stored json4s r' nickname = afterWrite nickname (stored json4s r nickname) w := by
  rcases w with _ | ⟨n, list⟩
  · exact stored_of_tasks_eq (congrFun h _)
  · have hkey := congrFun h (redisKey nickname)
    by_cases hn : nickname = n
    · subst hn
      rw [write_self] at hkey
      rw [stored, hkey, parseStored_compact, afterWrite, if_pos rfl]
      rfl
    · rw [write_of_ne _ hn] at hkey
      rw [afterWrite, if_neg hn]
      exact stored_of_tasks_eq hkey

/-! ### The operations of Redis -/

theorem withJedis_ok {α : Type} {f : Redis Text → α × Redis Text} {s : Session Text}
    (h : s.outcomes.headD true = true) :
    withJedis f s =
      .ok (f s.redis).1 { s with redis := (f s.redis).2, outcomes := s.outcomes.tail } :=
  if_pos h

theorem withJedis_error {α : Type} {f : Redis Text → α × Redis Text} {s : Session Text}
    (h : s.outcomes.headD true = false) :
    withJedis f s = .error .JedisException { s with outcomes := s.outcomes.tail } :=
  if_neg (by rw [h]; exact Bool.false_ne_true)

/-- A value is read, and then parsed; another one is taken if it cannot be. -/
theorem tryCatch_parse {α β : Type} {f : Redis Text → α × Redis Text} {parse : α → Gate Text β}
    {other : β} {parsed : Option β} {e : Failure} {s : Session Text}
    (h : s.outcomes.headD true = true)
    (hsome : ∀ b, parsed = some b → parse (f s.redis).1 = pure b)
    (hnone : parsed = .none → parse (f s.redis).1 = throw e) :
    tryCatch (withJedis f >>= parse) (fun _ => pure other) s =
      .ok (parsed.getD other) { s with redis := (f s.redis).2, outcomes := s.outcomes.tail } := by
  rcases parsed with _ | b
  · have hread := (bind_ok (withJedis_ok h)).trans (congrFun (hnone rfl) _)
    rw [tryCatch_error hread]
    rfl
  · have hread := (bind_ok (withJedis_ok h)).trans (congrFun (hsome b rfl) _)
    rw [tryCatch_ok hread]
    rfl

/-- A list that cannot be read is an empty one. -/
theorem getTasks_eq (json4s : Codec Text) (nickname : String) (s : Session Text) :
    getTasks json4s nickname .all s =
      .ok (if s.outcomes.headD true then stored json4s s.redis nickname else Tasks.none)
        { s with outcomes := s.outcomes.tail } := by
  unfold getTasks
  rcases hok : s.outcomes.headD true with _ | _
  · rw [tryCatch_error (bind_error (withJedis_error hok))]
    rfl
  · exact tryCatch_parse hok (fun _ hp => by rw [hp]) fun hp => by rw [hp]

theorem setTasks_eq (json4s : Codec Text) (nickname : String) (tasks : Tasks) (s : Session Text) :
    setTasks json4s nickname tasks s =
      if s.outcomes.headD true then
        .ok true { s with
          redis := { s.redis with tasks := write json4s s.redis.tasks (some (nickname, tasks)) }
          outcomes := s.outcomes.tail }
      else .ok false { s with outcomes := s.outcomes.tail } := by
  unfold setTasks
  rcases hok : s.outcomes.headD true with _ | _
  · rw [tryCatch_error (bind_error (withJedis_error hok))]
    rfl
  · rw [if_pos rfl]
    exact tryCatch_ok (bind_ok (withJedis_ok hok))

/-! ### The commands -/

/-- The lists after a computation. -/
def listsAfter {α : Type} (x : Gate Text α) (s : Session Text) : String → Option Text :=
  (final (x s)).redis.tasks

theorem frame_sendMessage (message : String) :
    Frame (fun s : Session Text => s.redis.tasks) (sendMessage message) := fun _ => rfl

/-- A list is written, and then something is sent. -/
theorem listsAfter_setTasks (json4s : Codec Text) (nickname : String) (tasks : Tasks)
    {k : Bool → Gate Text Unit} (hk : ∀ b, Frame (fun s : Session Text => s.redis.tasks) (k b))
    (s : Session Text) :
    listsAfter (setTasks json4s nickname tasks >>= k) s =
      write json4s s.redis.tasks (if s.outcomes.headD true then some (nickname, tasks)
        else .none) := by
  have hset := setTasks_eq json4s nickname tasks s
  unfold listsAfter
  rcases hok : s.outcomes.headD true with _ | _
  all_goals rw [hok] at hset
  · rw [bind_ok hset]
    exact hk false _
  · rw [bind_ok hset]
    exact hk true _

theorem frame_withJedis {α : Type} {f : Redis Text → α × Redis Text}
    (hf : ∀ r, (f r).2.tasks = r.tasks) :
    Frame (fun s : Session Text => s.redis.tasks) (withJedis f) := by
  intro s
  rcases hok : s.outcomes.headD true with _ | _
  · rw [withJedis_error hok]
    rfl
  · rw [withJedis_ok hok]
    exact hf s.redis

theorem frame_getTasks (nickname : String) (state : TaskState) :
    Frame (fun s : Session Text => s.redis.tasks) (getTasks json4s nickname state) := by
  refine .tryCatch (.bind (frame_withJedis fun _ => rfl) fun stored => ?_) fun _ => .pure _
  rcases parseStored json4s state stored with _ | tasks
  · exact .throw _
  · exact .pure _

theorem frame_getTasksPage (nickname : String) :
    Frame (fun s : Session Text => s.redis.tasks) (getTasksPage nickname) := by
  refine .tryCatch (.bind (frame_withJedis fun _ => rfl) fun page => ?_) fun _ => .pure _
  rcases page.bind parseInt with _ | page
  · exact .throw _
  · exact .pure _

theorem frame_setTasksPage (nickname : String) (page : ℤ) :
    Frame (fun s : Session Text => s.redis.tasks) (setTasksPage nickname page) :=
  .tryCatch (.bind (frame_withJedis fun _ => rfl) fun _ => .pure _) fun _ => .pure _

theorem frame_pageAt (groupedTasks : List (List Task)) (page : ℤ) :
    Frame (fun s : Session Text => s.redis.tasks) (pageAt groupedTasks page) := by
  unfold pageAt
  rcases groupedTasks[page.toNat]? with _ | tasks
  · exact .throw _
  · exact .pure _

theorem frame_listTasksCmd (perPage : ℕ) (sender nickname : String) (state : TaskState)
    (paginate : TasksPagination) :
    Frame (fun s : Session Text => s.redis.tasks)
      (listTasksCmd json4s perPage sender nickname state paginate) := by
  refine .ite (.bind (frame_getTasks nickname state) fun tasks =>
    .ite ?_ (frame_sendMessage _)) (.pure _)
  refine .bind (frame_getTasksPage nickname) fun _ =>
    .bind (frame_getTasksPage nickname) fun _ => ?_
  refine .bind (frame_setTasksPage nickname _) fun _ =>
    .bind (frame_pageAt _ _) fun tasksToShow => ?_
  refine .bind (frame_getTasksPage nickname) fun _ => .bind (frame_sendMessage _) fun _ => ?_
  exact .forM (fun _ => frame_sendMessage _) tasksToShow

/-- The two outcomes that a command looks at. -/
theorem headD_outcomes (m : Message) : m.outcomes.headD true = m.succeeds 0 := by
  rw [Message.succeeds]
  cases m.outcomes <;> rfl

theorem headD_tail_outcomes (m : Message) : m.outcomes.tail.headD true = m.succeeds 1 := by
  rw [Message.succeeds]
  rcases m.outcomes with _ | ⟨a, _ | ⟨b, l⟩⟩ <;> rfl

/-- A list is read, changed and written. -/
theorem lists_change (json4s : Codec Text) (redis : Redis Text) (m : Message) (nickname : String)
    (change : Tasks → Tasks) {k : Tasks → Bool → Gate Text Unit}
    (hk : ∀ tasks b, Frame (fun s : Session Text => s.redis.tasks) (k tasks b)) :
    listsAfter (getTasks json4s nickname .all >>= fun tasks =>
        setTasks json4s nickname (change tasks) >>= k tasks)
        ⟨redis, m.outcomes, []⟩ =
      write json4s redis.tasks
        (if m.succeeds 1 then some (nickname, change (readTasks json4s redis m nickname))
          else .none) := by
  have hget := getTasks_eq json4s nickname ⟨redis, m.outcomes, []⟩
  rw [listsAfter, bind_ok hget]
  have hset := listsAfter_setTasks json4s nickname (change (readTasks json4s redis m nickname))
    (hk (readTasks json4s redis m nickname)) ⟨redis, m.outcomes.tail, []⟩
  rw [headD_tail_outcomes] at hset
  rw [← hset, headD_outcomes]
  rfl

/-- A list is read, but the identifiers are not numbers. -/
theorem lists_throw (json4s : Codec Text) (redis : Redis Text) (m : Message) (nickname : String)
    (e : Failure) :
    listsAfter (getTasks json4s nickname .all >>= fun _ => (throw e : Gate Text Unit))
      ⟨redis, m.outcomes, []⟩ =
      redis.tasks :=
  Frame.bind (frame_getTasks nickname .all) (fun _ => .throw e) _

/-- The checks that the commands with arguments make. -/
theorem lists_checked {redis : Redis Text} {m : Message} {nickname error : String}
    {args : List String} {list : Option Tasks} {body : Gate Text Unit}
    (hbody : listsAfter body ⟨redis, m.outcomes, []⟩ =
      write json4s redis.tasks (if m.succeeds 1 then list.map fun l => (nickname, l) else .none)) :
    listsAfter (if nickname ∈ allowedUserNames then if args.length > 0
        then body else sendMessage error
        else pure ()) ⟨redis, m.outcomes, []⟩ =
      write json4s redis.tasks (writes m nickname args list) := by
  unfold writes
  by_cases hn : nickname ∈ allowedUserNames
  · by_cases ha : args = []
    · rw [if_pos hn, if_neg (by rw [ha]; exact Nat.lt_irrefl 0), if_neg (fun h => h.2.1 ha)]
      rfl
    · rw [if_pos hn, if_pos (List.length_pos_iff.mpr ha), hbody]
      simp only [hn, ha, ne_eq, not_false_eq_true, true_and]
  · rw [if_neg hn, if_neg fun h => hn h.1]
    rfl

section Commands

variable (json4s : Codec Text) (redis : Redis Text) (m : Message) (sender nickname : String)

theorem lists_addTaskCmd (content : List String) :
    listsAfter (addTaskCmd json4s sender nickname content m.timeStamp) ⟨redis, m.outcomes, []⟩ =
      write json4s redis.tasks (writes m nickname content
        (some ((readTasks json4s redis m nickname).add content m.timeStamp))) :=
  lists_checked (lists_change json4s redis m nickname (fun tasks => tasks.add content m.timeStamp)
    fun _ _ => .ite (frame_sendMessage _) (frame_sendMessage _))

theorem lists_doneTasksCmd (ids : List String) :
    listsAfter (doneTasksCmd json4s sender nickname ids) ⟨redis, m.outcomes, []⟩ =
      write json4s redis.tasks (writes m nickname ids
        ((toInts ids).map (readTasks json4s redis m nickname).markDone)) := by
  refine lists_checked ?_
  rcases toInts ids with _ | tasksIds
  · rw [lists_throw, Option.map_none, Option.map_none, ite_self]
    rfl
  · exact lists_change json4s redis m nickname (fun tasks => tasks.markDone tasksIds)
      fun _ _ => .ite (frame_sendMessage _) (frame_sendMessage _)

theorem lists_removeTasksCmd (ids : List String) :
    listsAfter (removeTasksCmd json4s sender nickname ids) ⟨redis, m.outcomes, []⟩ =
      write json4s redis.tasks (writes m nickname ids
        ((toInts ids).map (readTasks json4s redis m nickname).remove)) := by
  refine lists_checked ?_
  rcases toInts ids with _ | tasksIds
  · rw [lists_throw, Option.map_none, Option.map_none, ite_self]
    rfl
  · exact lists_change json4s redis m nickname (fun tasks => tasks.remove tasksIds)
      fun _ _ => .ite (frame_sendMessage _) (frame_sendMessage _)

theorem lists_wipeTasksCmd :
    listsAfter (wipeTasksCmd json4s sender nickname) ⟨redis, m.outcomes, []⟩ =
      write json4s redis.tasks
        (if nickname ∈ allowedUserNames ∧ m.succeeds 0 then some (nickname, Tasks.none)
          else .none) := by
  unfold wipeTasksCmd
  by_cases hn : nickname ∈ allowedUserNames
  · have hset := listsAfter_setTasks json4s nickname Tasks.none
      (fun b => Frame.ite (p := b = true) (frame_sendMessage (sender ++ ": Tasks wiped" ++
        append sender nickname))
        (frame_sendMessage
          (sender ++ ": Unfortunately, I can't wipe tasks. Please try again later.")))
      ⟨redis, m.outcomes, []⟩
    rw [headD_outcomes] at hset
    simp only [hn, true_and, if_true]
    exact hset
  · rw [if_neg hn, if_neg fun h => hn h.1]
    rfl

end Commands

/-- **What one message does to the lists**. -/
theorem tasks_step (json4s : Codec Text) (redis : Redis Text) (m : Message) :
    (step json4s redis m).tasks = write json4s redis.tasks (written json4s redis m) := by
  show listsAfter (onMessage json4s m) ⟨redis, m.outcomes, []⟩ = _
  unfold onMessage written
  rcases m.command with _ | _ | ⟨nickname, content⟩ | ids | ids | _ |
    ⟨nickname, state, paginate⟩ | _
  · rfl
  · rfl
  · exact lists_addTaskCmd json4s redis m m.sender nickname content
  · exact lists_doneTasksCmd json4s redis m m.sender m.sender ids
  · exact lists_removeTasksCmd json4s redis m m.sender m.sender ids
  · exact lists_wipeTasksCmd json4s redis m m.sender m.sender
  · exact frame_listTasksCmd tasksPerPage m.sender nickname state paginate _
  · rfl

/-- What one message does to the list of a nickname. -/
theorem stored_step (json4s : Codec Text) (redis : Redis Text) (m : Message) (nickname : String) :
    stored json4s (step json4s redis m) nickname =
      afterWrite nickname (stored json4s redis nickname) (written json4s redis m) :=
  stored_write (tasks_step json4s redis m) nickname

/-- The list of a nickname is the one that is written, or is as before. -/
theorem stored_step_cases (json4s : Codec Text) (redis : Redis Text) (m : Message)
    (nickname : String) :
    written json4s redis m = some (nickname, stored json4s (step json4s redis m) nickname) ∨
      ((∀ list, written json4s redis m ≠ some (nickname, list)) ∧
        stored json4s (step json4s redis m) nickname = stored json4s redis nickname) := by
  rw [stored_step]
  rcases written json4s redis m with _ | ⟨n, list⟩
  · exact .inr ⟨(fun _ h => by cases h), rfl⟩
  · by_cases hn : nickname = n
    · subst hn
      rw [afterWrite, if_pos rfl]
      exact .inl rfl
    · rw [afterWrite, if_neg hn]
      refine .inr ⟨fun list' h => hn ?_, rfl⟩
      exact (Prod.mk.inj (Option.some.inj h)).1.symm

end ServeD.Notifications.IrcTasks
