import ServeD.Launchers.Uids
import ServeD.Lib.FileLocks
import ServeD.Lib.Integers
import ServeD.Lib.Runs

/-! # One svd for each lock file

`main` of `kick.cc` and `spawnBackgroundTask` of `core.cc`, as the steps of any number of processes.
A process of `kick` becomes the user of its argument, opens `<home>/<argument>.pid`, takes the lock
of that file, writes its pid over the beginning of the file and executes the svd in its place; the
svd keeps the lock until it ends. As root it tries a second time when it cannot execute.

The kernel answers: an event says whether a call succeeds, how much of the pid is written, and what
else happens to the system (a process ends, or a name is removed and made again: `bin/clean` removes
the pid files).

* `kickstart_safe`: in every order of the steps one process at most is past the lock of a file, a
  lock is held by a process that lives, and an svd runs as the user of its argument, the core only
  as root;
* `pid_file_names_holder`: the number in the file is the pid of the svd;
* `kick_outcome`: a kick runs its svd unless another process holds the lock, and else changes
  nothing;
* `one_per_uid_iff`: no two svds run for one uid exactly when no two arguments denote one uid. -/

namespace ServeD.Launchers.Kickstart

open ServeD.Launchers.Arguments ServeD.Launchers.Uids ServeD.Lib.FileLocks ServeD.Lib.Runs

/-! ### Names -/

def USERS_HOME_DIR : List Char := "/Users".toList

def SYSTEMUSERS_HOME_DIR : List Char := "/SystemUsers".toList

def CORE_SVD_ID : List Char := "boot".toList

/-- `argv[1]`, if `argc` is not 1. -/
abbrev Argument := Option CString

/-- `params.svdArg`. -/
def svdArg : Argument → List Char
  | none => "0".toList
  | some s => s.chars

def homeDir (arg : Argument) : List Char :=
  match arg with
  | none => SYSTEMUSERS_HOME_DIR
  | some _ => USERS_HOME_DIR ++ '/' :: svdArg arg

/-- `homeDir + "/" + params.svdArg + ".pid"`. -/
def lockName (arg : Argument) : List Char := homeDir arg ++ '/' :: (svdArg arg ++ ".pid".toList)

/-- `atoi(params.svdArg.c_str())`. -/
def uid (arg : Argument) : BitVec 32 := atoi (svdArg arg)

/-- The two programs that can be executed. -/
inductive Jar where
  | root
  | user
  deriving DecidableEq, Repr

/-- What `spawnBackgroundTask` executes: the jar and its argument. -/
structure Task where
  jar : Jar
  svdArg : List Char
  deriving DecidableEq

def task (arg : Argument) : Task :=
  let svdArg := if uid arg = 0 then CORE_SVD_ID else svdArg arg
  ⟨if svdArg = CORE_SVD_ID then .root else .user, svdArg⟩

/-! ### Processes -/

/-- Where a process is. In `spawnBackgroundTask` it knows whether `main` will call that `again`. -/
inductive Phase where
  | setuid
  | opening (again : Bool)
  | locking (again : Bool) (file : ℕ)
  | writing (again : Bool) (file : ℕ)
  | executing (again : Bool) (file : ℕ)
  | running (task : Task) (file : ℕ)
  deriving DecidableEq

structure Proc where
  arg : Argument
  user : BitVec 32
  phase : Phase

/-- The exit codes of `kick`. -/
inductive Exit where
  | returned
  | lockFileOccupied
  | cannotLock
  | noRootPrivileges
  | setuid
  | installationMissing
  deriving DecidableEq, Repr

def Exit.code : Exit → ℕ
  | .returned => 0
  | .lockFileOccupied => 100
  | .cannotLock => 101
  | .noRootPrivileges => 104
  | .setuid => 105
  | .installationMissing => 113

structure State where
  procs : ℕ → Option Proc
  names : List Char → ℕ
  content : ℕ → List Char
  locks : Locks ℕ ℕ
  exits : List (ℕ × Exit)

inductive Event where
  | kick (pid : ℕ) (arg : Argument) (root installed : Bool)
  | setuid (pid : ℕ) (ok : Bool)
  | openFile (pid : ℕ) (ok : Bool)
  | lockf (pid : ℕ) (ok : Bool)
  | writePid (pid n : ℕ)
  | exec (pid : ℕ) (ok : Bool)
  | die (pid : ℕ)
  | rename (name : List Char) (file : ℕ)

/-- A machine on which nothing was kicked. -/
def boot (names : List Char → ℕ) (content : ℕ → List Char) : State :=
  ⟨fun _ => none, names, content, fun _ => none, []⟩

namespace State

def go (s : State) (pid : ℕ) (proc : Proc) : State :=
  { s with procs := Function.update s.procs pid (some proc) }

/-- The end of a process, with its locks. -/
def die (s : State) (pid : ℕ) : State :=
  { s with procs := Function.update s.procs pid none, locks := release s.locks pid }

def exit (s : State) (pid : ℕ) (code : Exit) : State :=
  { s.die pid with exits := (pid, code) :: s.exits }

end State

/-- `sprintf(str, "%d\n", getpid())`. -/
def record (pid : ℕ) : List Char := Nat.toDigits 10 pid ++ ['\n']

/-- `write` at the beginning of a file. -/
def overwrite (text new : List Char) : List Char := new ++ text.drop new.length

/-- What a call of a living process does. -/
def call (s : State) (pid : ℕ) (p : Proc) : Event → State
  | .setuid _ ok =>
    match p.phase with
    | .setuid => if ok then s.go pid ⟨p.arg, uid p.arg, .opening false⟩ else s.exit pid .setuid
    | _ => s
  | .openFile _ ok =>
    match p.phase with
    | .opening again =>
      if ok then s.go pid { p with phase := .locking again (s.names (lockName p.arg)) }
      else s.exit pid .lockFileOccupied
    | _ => s
  | .lockf _ ok =>
    match p.phase with
    | .locking again file =>
      match if ok then take s.locks file pid else none with
      | some locks => { s.go pid { p with phase := .writing again file } with locks := locks }
      | none => s.exit pid .cannotLock
    | _ => s
  | .writePid _ n =>
    match p.phase with
    | .writing again file =>
      { s.go pid { p with phase := .executing again file } with
        content :=
          Function.update s.content file (overwrite (s.content file) ((record pid).take n)) }
    | _ => s
  | .exec _ ok =>
    match p.phase with
    | .executing again file =>
      if ok then s.go pid { p with phase := .running (task p.arg) file }
      else if again then s.go pid { p with phase := .opening false }
      else s.exit pid .returned
    | _ => s
  | .die _ => s.die pid
  | _ => s

/-- `main` up to `setuid`. -/
def main (s : State) (pid : ℕ) (arg : Argument) (root installed : Bool) : State :=
  if !root then { s with exits := (pid, .noRootPrivileges) :: s.exits }
  else if !installed then { s with exits := (pid, .installationMissing) :: s.exits }
  else s.go pid ⟨arg, 0, if uid arg = 0 then .opening true else .setuid⟩

def Event.pid : Event → Option ℕ
  | .kick pid .. | .setuid pid _ | .openFile pid _ | .lockf pid _ | .writePid pid _
  | .exec pid _ | .die pid =>
    some pid
  | .rename .. => none

/-- One step of the system. A pid that is in use is given to no other process. -/
def step (s : State) (e : Event) : State :=
  match e with
  | .rename name file => { s with names := Function.update s.names name file }
  | .kick pid arg root installed =>
    match s.procs pid with
    | none => main s pid arg root installed
    | some _ => s
  | e =>
    match e.pid with
    | none => s
    | some pid =>
      match s.procs pid with
      | none => s
      | some p => call s pid p e

/-! ### What a step can do -/

/-- The ways in which a step changes the system. -/
inductive Change (s : State) : Event → State → Prop
  | same (e : Event) : Change s e s
  | renamed (name : List Char) (file : ℕ) :
    Change s (.rename name file) { s with names := Function.update s.names name file }
  | refused (pid : ℕ) (arg : Argument) (root installed : Bool) (code : Exit) :
    Change s (.kick pid arg root installed) { s with exits := (pid, code) :: s.exits }
  | started (pid : ℕ) (arg : Argument) (hfree : s.procs pid = none) :
    Change s (.kick pid arg true true)
      (s.go pid ⟨arg, 0, if uid arg = 0 then .opening true else .setuid⟩)
  | became (pid : ℕ) (p : Proc) (hp : s.procs pid = some p) (hphase : p.phase = .setuid) :
    Change s (.setuid pid true) (s.go pid ⟨p.arg, uid p.arg, .opening false⟩)
  | opened (pid : ℕ) (p : Proc) (again : Bool) (hp : s.procs pid = some p)
    (hphase : p.phase = .opening again) :
    Change s (.openFile pid true)
      (s.go pid { p with phase := .locking again (s.names (lockName p.arg)) })
  | locked (pid : ℕ) (p : Proc) (again : Bool) (file : ℕ) (locks : Locks ℕ ℕ)
    (hp : s.procs pid = some p) (hphase : p.phase = .locking again file)
    (htake : take s.locks file pid = some locks) :
    Change s (.lockf pid true)
      { s.go pid { p with phase := .writing again file } with locks := locks }
  | wrote (pid n : ℕ) (p : Proc) (again : Bool) (file : ℕ) (hp : s.procs pid = some p)
    (hphase : p.phase = .writing again file) :
    Change s (.writePid pid n) { s.go pid { p with phase := .executing again file } with
      content := Function.update s.content file (overwrite (s.content file) ((record pid).take n)) }
  | executed (pid : ℕ) (p : Proc) (again : Bool) (file : ℕ) (hp : s.procs pid = some p)
    (hphase : p.phase = .executing again file) :
    Change s (.exec pid true) (s.go pid { p with phase := .running (task p.arg) file })
  | retried (pid : ℕ) (p : Proc) (file : ℕ) (hp : s.procs pid = some p)
    (hphase : p.phase = .executing true file) :
    Change s (.exec pid false) (s.go pid { p with phase := .opening false })
  | died (pid : ℕ) (p : Proc) (hp : s.procs pid = some p) : Change s (.die pid) (s.die pid)
  | exited (e : Event) (pid : ℕ) (p : Proc) (code : Exit) (hp : s.procs pid = some p) :
    Change s e (s.exit pid code)

theorem change_main (s : State) (pid : ℕ) (arg : Argument) (root installed : Bool)
    (h : s.procs pid = none) :
    Change s (.kick pid arg root installed) (main s pid arg root installed) := by
  unfold main
  cases root with
  | false => exact .refused pid arg false installed _
  | true =>
    cases installed with
    | false => exact .refused pid arg true false _
    | true => exact .started pid arg h

theorem change_call (s : State) {pid : ℕ} {p : Proc} {e : Event} (hpid : e.pid = some pid)
    (hp : s.procs pid = some p) : Change s e (call s pid p e) := by
  cases e with
  | rename name file => exact .same _
  | kick pid' arg root installed => exact .same _
  | die pid' =>
    cases hpid
    exact .died pid p hp
  | setuid pid' ok =>
    cases hpid
    dsimp only [call]
    split
    · next hphase =>
      cases ok with
      | true => exact .became pid p hp hphase
      | false => exact .exited _ pid p _ hp
    · exact .same _
  | openFile pid' ok =>
    cases hpid
    dsimp only [call]
    split
    · next again hphase =>
      cases ok with
      | true => exact .opened pid p again hp hphase
      | false => exact .exited _ pid p _ hp
    · exact .same _
  | lockf pid' ok =>
    cases hpid
    dsimp only [call]
    split
    · next again file hphase =>
      cases ok with
      | false => exact .exited _ pid p _ hp
      | true =>
        split
        · next locks htake => exact .locked pid p again file locks hp hphase htake
        · exact .exited _ pid p _ hp
    · exact .same _
  | writePid pid' n =>
    cases hpid
    dsimp only [call]
    split
    · next again file hphase => exact .wrote pid n p again file hp hphase
    · exact .same _
  | exec pid' ok =>
    cases hpid
    dsimp only [call]
    split
    · next again file hphase =>
      cases ok with
      | true => exact .executed pid p again file hp hphase
      | false =>
        cases again with
        | true => exact .retried pid p file hp hphase
        | false => exact .exited _ pid p _ hp
    · exact .same _

theorem change_step (s : State) (e : Event) : Change s e (step s e) := by
  unfold step
  split
  · exact .renamed _ _
  · split
    · next hfree => exact change_main _ _ _ _ _ hfree
    · exact .same _
  · split
    · exact .same _
    · next hpid =>
      split
      · exact .same _
      · next hp => exact change_call s hpid hp

/-! ### Safety -/

/-- The file whose lock the process is past. -/
def Phase.file : Phase → Option ℕ
  | .writing _ file | .executing _ file | .running _ file => some file
  | _ => none

/-- The process is past the lock of the file. -/
def State.Past (s : State) (pid file : ℕ) : Prop :=
  ∃ p, s.procs pid = some p ∧ p.phase.file = some file

/-- What a process knows of itself. -/
structure Right (p : Proc) : Prop where
  user : p.user = if p.phase = .setuid then 0 else uid p.arg
  task : ∀ t file, p.phase = .running t file → t = task p.arg

structure Inv (s : State) : Prop where
  guarded : Guarded s.locks s.Past
  live : ∀ file pid, s.locks file = some pid → s.procs pid ≠ none
  right : ∀ pid p, s.procs pid = some p → Right p

section Safety

variable {s : State} {pid q : ℕ} {p : Proc}

theorem procs_go {p' : Proc} (h : (s.go pid p).procs q = some p') :
    (q = pid ∧ p' = p) ∨ (q ≠ pid ∧ s.procs q = some p') := by
  by_cases hq : q = pid
  · subst hq
    have hself : (s.go q p).procs q = some p := Function.update_self ..
    exact .inl ⟨rfl, (Option.some.inj (hself.symm.trans h)).symm⟩
  · have hother : (s.go pid p).procs q = s.procs q := Function.update_of_ne hq ..
    exact .inr ⟨hq, hother ▸ h⟩

theorem procs_die {p' : Proc} (h : (s.die pid).procs q = some p') :
    q ≠ pid ∧ s.procs q = some p' := by
  by_cases hq : q = pid
  · subst hq
    have hself : (s.die q).procs q = none := Function.update_self ..
    rw [hself] at h
    cases h
  · have hother : (s.die pid).procs q = s.procs q := Function.update_of_ne hq ..
    exact ⟨hq, hother ▸ h⟩

theorem past_go {file : ℕ} (h : (s.go pid p).Past q file) :
    (q = pid ∧ p.phase.file = some file) ∨ (q ≠ pid ∧ s.Past q file) := by
  obtain ⟨p', hp', hfile⟩ := h
  rcases procs_go hp' with ⟨hq, rfl⟩ | ⟨hq, hp'⟩
  · exact .inl ⟨hq, hfile⟩
  · exact .inr ⟨hq, p', hp', hfile⟩

theorem procs_go_ne_none (h : s.procs q ≠ none) : (s.go pid p).procs q ≠ none := by
  by_cases hq : q = pid
  · subst hq
    have hself : (s.go q p).procs q = some p := Function.update_self ..
    rw [hself]
    exact Option.some_ne_none p
  · have hother : (s.go pid p).procs q = s.procs q := Function.update_of_ne hq ..
    rw [hother]
    exact h

/-- A process goes on, and past no lock that it was not past. -/
theorem Inv.go (h : Inv s) (hright : Right p) (hfile : ∀ file, p.phase.file = some file →
      s.Past pid file) :
    Inv (s.go pid p) where
  guarded := h.guarded.mono fun q file hq => by
    rcases past_go hq with ⟨rfl, hf⟩ | ⟨-, hq⟩
    · exact hfile file hf
    · exact hq
  live := fun file q hq => procs_go_ne_none (h.live file q hq)
  right := fun q p' hp' => by
    rcases procs_go hp' with ⟨-, rfl⟩ | ⟨-, hp'⟩
    · exact hright
    · exact h.right q p' hp'

theorem Inv.die (h : Inv s) (pid : ℕ) : Inv (s.die pid) where
  guarded := h.guarded.release fun q file hq => by
    obtain ⟨p', hp', hfile⟩ := hq
    exact ⟨⟨p', (procs_die hp').2, hfile⟩, (procs_die hp').1⟩
  live := fun file q hq => by
    obtain ⟨hq, hne⟩ := release_eq_some.mp hq
    have hother : (s.die pid).procs q = s.procs q := Function.update_of_ne hne ..
    rw [hother]
    exact h.live file q hq
  right := fun q p' hp' => h.right q p' (procs_die hp').2

/-- A process that takes a lock goes past it. -/
theorem Inv.lock {file : ℕ} {locks : Locks ℕ ℕ} (h : Inv s)
    (htake : take s.locks file pid = some locks) (hright : Right p)
    (hfile : p.phase.file = some file) : Inv { s.go pid p with locks := locks } where
  guarded := h.guarded.take htake fun q g hq => by
    rcases past_go hq with ⟨rfl, hg⟩ | ⟨-, hq⟩
    · exact .inr ⟨rfl, Option.some.inj (hg.symm.trans hfile)⟩
    · exact .inl hq
  live := fun g q hq => by
    obtain ⟨-, rfl⟩ := take_eq_some htake
    by_cases hg : g = file
    · subst hg
      have hself : Function.update s.locks g (some pid) g = some pid := Function.update_self ..
      cases hself.symm.trans hq
      have hp : (s.go pid p).procs pid = some p := Function.update_self ..
      show (s.go pid p).procs pid ≠ none
      rw [hp]
      exact Option.some_ne_none p
    · have hother : Function.update s.locks file (some pid) g = s.locks g :=
        Function.update_of_ne hg ..
      exact procs_go_ne_none (h.live g q (hother ▸ hq))
  right := fun q p' hp' => by
    rcases procs_go hp' with ⟨-, rfl⟩ | ⟨-, hp'⟩
    · exact hright
    · exact h.right q p' hp'

/-- A process after its call of `setuid` that executes nothing yet. -/
theorem Right.next (h : Right p) (hphase : p.phase ≠ .setuid) {phase : Phase}
    (hne : phase ≠ .setuid) (hrun : ∀ t file, phase = .running t file → t = Kickstart.task p.arg) :
    Right { p with phase := phase } where
  user := by
    show p.user = if phase = .setuid then 0 else uid p.arg
    rw [if_neg hne, h.user, if_neg hphase]
  task := hrun

theorem Inv.change (h : Inv s) {e : Event} {s' : State} (hc : Change s e s') : Inv s' := by
  cases hc with
  | same => exact h
  | renamed name file => exact ⟨h.guarded, h.live, h.right⟩
  | refused pid arg root installed code => exact ⟨h.guarded, h.live, h.right⟩
  | started pid arg hfree =>
    refine h.go ⟨?_, fun t file hrun => ?_⟩ fun file hfile => ?_
    · by_cases h0 : uid arg = 0
      · rw [if_pos h0, if_neg nofun]
        exact h0.symm
      · rw [if_neg h0, if_pos rfl]
    · dsimp only at hrun
      split_ifs at hrun
    · dsimp only at hfile
      split_ifs at hfile
      · cases hfile
      · cases hfile
  | became pid p hp hphase =>
    exact h.go ⟨(if_neg nofun).symm, fun t file hrun => by cases hrun⟩ fun file hfile => by
      cases hfile
  | opened pid p again hp hphase =>
    refine h.go ((h.right pid p hp).next ?_ ?_ ?_) fun file hfile => by cases hfile
    · rw [hphase]; exact nofun
    · exact nofun
    · exact fun t file hrun => by cases hrun
  | locked pid p again file locks hp hphase htake =>
    refine h.lock htake ((h.right pid p hp).next ?_ ?_ ?_) rfl
    · rw [hphase]; exact nofun
    · exact nofun
    · exact fun t file hrun => by cases hrun
  | wrote pid n p again file hp hphase =>
    have hgo : Inv (s.go pid { p with phase := .executing again file }) := by
      refine h.go ((h.right pid p hp).next ?_ ?_ ?_) fun g hg => ⟨p, hp, by rw [hphase]; exact hg⟩
      · rw [hphase]; exact nofun
      · exact nofun
      · exact fun t file hrun => by cases hrun
    exact ⟨hgo.guarded, hgo.live, hgo.right⟩
  | executed pid p again file hp hphase =>
    refine h.go ((h.right pid p hp).next ?_ ?_ ?_) fun g hg => ⟨p, hp, by rw [hphase]; exact hg⟩
    · rw [hphase]; exact nofun
    · exact nofun
    · intro t g hrun
      cases hrun
      rfl
  | retried pid p file hp hphase =>
    refine h.go ((h.right pid p hp).next ?_ ?_ ?_) fun g hg => by cases hg
    · rw [hphase]; exact nofun
    · exact nofun
    · exact fun t g hrun => by cases hrun
  | died pid p hp => exact h.die pid
  | exited _ pid p code hp => exact ⟨(h.die pid).guarded, (h.die pid).live, (h.die pid).right⟩

theorem inv_boot (names : List Char → ℕ) (content : ℕ → List Char) : Inv (boot names content) where
  guarded := fun pid file hpast => by
    obtain ⟨p, hp, -⟩ := hpast
    cases hp
  live := fun file pid hlock => by cases hlock
  right := fun pid p hp => by cases hp

theorem inv_run (h : Inv s) (es : List Event) : Inv (run step s es) :=
  run_invariant (fun s e hs => Inv.change hs (change_step s e)) es s h

/-- What holds of the system whatever the order of the steps. -/
structure Safe (s : State) : Prop where
  alone : ∀ pid pid' file, s.Past pid file → s.Past pid' file → pid = pid'
  live : ∀ file pid, s.locks file = some pid → ∃ p, s.procs pid = some p
  user : ∀ pid p t file, s.procs pid = some p → p.phase = .running t file → p.user = uid p.arg
  core : ∀ pid p t file, s.procs pid = some p → p.phase = .running t file →
    (t.jar = .root ↔ p.user = 0)
  given : ∀ pid p t file, s.procs pid = some p → p.phase = .running t file → p.user ≠ 0 →
    t.svdArg = svdArg p.arg

/-- The core is executed for what `atoi` takes for 0. -/
theorem jar_task (arg : Argument) : (task arg).jar = .root ↔ uid arg = 0 := by
  unfold task
  by_cases h0 : uid arg = 0
  · simp [h0]
  · have hne : svdArg arg ≠ CORE_SVD_ID := by
      intro heq
      refine h0 ?_
      unfold uid
      rw [heq]
      decide
    simp [hne]

theorem Inv.safe (h : Inv s) : Safe s where
  alone := fun pid pid' file hp hq => h.guarded.unique hp hq
  live := fun file pid hlock => Option.ne_none_iff_exists'.mp (h.live file pid hlock)
  user := fun pid p t file hp hrun => by
    rw [(h.right pid p hp).user, hrun]
    exact if_neg nofun
  core := fun pid p t file hp hrun => by
    rw [(h.right pid p hp).task t file hrun, jar_task, (h.right pid p hp).user, hrun, if_neg nofun]
  given := fun pid p t file hp hrun hne => by
    have hu : p.user = uid p.arg := by
      rw [(h.right pid p hp).user, hrun]
      exact if_neg nofun
    rw [(h.right pid p hp).task t file hrun]
    exact if_neg (hu ▸ hne)

end Safety

/-- **One process at most is past the lock of a file, and an svd runs as the user of its argument**,
in every order of the steps and whatever the kernel answers. -/
theorem kickstart_safe (names : List Char → ℕ) (content : ℕ → List Char) (es : List Event) :
    Safe (run step (boot names content) es) := (inv_run (inv_boot names content) es).safe

/-! ### The pid file -/

/-- The file in which the process has written its pid. -/
def Phase.written : Phase → Option ℕ
  | .executing _ file | .running _ file => some file
  | _ => none

/-- Every write of a pid is complete. -/
def Complete : Event → Prop
  | .writePid pid n => (record pid).length ≤ n
  | _ => True

def Recorded (s : State) : Prop :=
  ∀ pid p file, s.procs pid = some p → p.phase.written = some file → record pid <+: s.content file

section PidFile

variable {s : State} {pid : ℕ} {p : Proc}

theorem file_of_written {phase : Phase} {file : ℕ} (h : phase.written = some file) :
    phase.file = some file := by
  cases phase with
  | executing again f => exact h
  | running t f => exact h
  | _ => cases h

/-- What a process has written stays while others go on, as long as the file does. -/
theorem Recorded.go (h : Recorded s)
    (hfile : ∀ file, p.phase.written = some file → record pid <+: s.content file) :
    Recorded (s.go pid p) := by
  intro q p' file hp' hw
  rcases procs_go hp' with ⟨rfl, rfl⟩ | ⟨-, hp'⟩
  · exact hfile file hw
  · exact h q p' file hp' hw

theorem Recorded.die (h : Recorded s) (pid : ℕ) : Recorded (s.die pid) :=
  fun q p' file hp' hw => h q p' file (procs_die hp').2 hw

theorem Recorded.change {e : Event} {s' : State} (h : Recorded s) (hinv : Inv s) (he : Complete e)
    (hc : Change s e s') : Recorded s' := by
  cases hc with
  | same => exact h
  | renamed name file => exact h
  | refused pid arg root installed code => exact h
  | started pid arg hfree =>
    refine h.go fun file hw => ?_
    dsimp only at hw
    split_ifs at hw
    · cases hw
    · cases hw
  | became pid p hp hphase => exact h.go fun file hw => by cases hw
  | opened pid p again hp hphase => exact h.go fun file hw => by cases hw
  | locked pid p again file locks hp hphase htake =>
    exact h.go (p := { p with phase := .writing again file }) fun g hw => by cases hw
  | wrote pid n p again file hp hphase =>
    have hrec : (record pid).take n = record pid := List.take_of_length_le he
    rw [hrec]
    intro q p' g hp' hw
    by_cases hg : g = file
    · subst hg
      -- Whoever has written into the file is past its lock, as the writer is.
      have hq : q = pid := by
        rcases procs_go hp' with ⟨hq, -⟩ | ⟨-, hp'⟩
        · exact hq
        · exact hinv.guarded.unique ⟨p', hp', file_of_written hw⟩ ⟨p, hp, by rw [hphase]; rfl⟩
      subst hq
      show record q <+: Function.update s.content g _ g
      rw [Function.update_self]
      exact ⟨_, rfl⟩
    · show record q <+: Function.update s.content file _ g
      rw [Function.update_of_ne hg]
      rcases procs_go hp' with ⟨rfl, rfl⟩ | ⟨-, hp'⟩
      · exact absurd (Option.some.inj hw).symm hg
      · exact h q p' g hp' hw
  | executed pid p again file hp hphase =>
    exact h.go fun g hw => h pid p g hp (by rw [hphase]; exact hw)
  | retried pid p file hp hphase => exact h.go fun g hw => by cases hw
  | died pid p hp => exact h.die pid
  | exited _ pid p code hp => exact h.die pid

theorem recorded_run {names : List Char → ℕ} {content : ℕ → List Char} {es : List Event}
    (h : ∀ e ∈ es, Complete e) : Recorded (run step (boot names content) es) := by
  have hboot : Inv (boot names content) ∧ Recorded (boot names content) :=
    ⟨inv_boot names content, fun pid p file hp => by cases hp⟩
  exact (run_invariant_of (P := fun s => Inv s ∧ Recorded s)
    (fun s e hs he => ⟨hs.1.change (change_step s e), hs.2.change hs.1 he (change_step s e)⟩)
    h hboot).2

/-- A number is read up to what does not belong to it. -/
theorem field_append {ds rest : List Char} {c : Char} (hne : ds ≠ [])
    (hds : ∀ d ∈ ds, d.isDigit = true) (hc : c.isDigit = false) :
    field (ds ++ c :: rest) = (false, ds) := by
  have hself := field_digits hds
  have htake : (ds ++ c :: rest).takeWhile Char.isDigit = ds := by
    rw [List.takeWhile_append_of_pos hds, List.takeWhile_cons_of_neg (by rw [hc]; simp),
      List.append_nil]
  obtain ⟨d, ds', rfl⟩ := List.exists_cons_of_ne_nil hne
  have hd := hds d (by simp)
  have hspace : isSpace d = false := by
    by_contra hs
    simp only [isSpace, Bool.not_eq_false, Bool.or_eq_true, beq_iff_eq] at hs
    rcases hs with ((((rfl | rfl) | rfl) | rfl) | rfl) | rfl <;> exact absurd hd (by decide)
  unfold field
  rw [List.cons_append, List.dropWhile_cons_of_neg (by simp [hspace])]
  unfold signed
  split
  · next heq => cases heq; exact absurd hd (by decide)
  · next heq => cases heq; exact absurd hd (by decide)
  · rw [← List.cons_append, htake]

/-- `ifs >> pid` reads the pid that was recorded, whatever the file held before. -/
theorem extractInt_record {text : List Char} (h : record pid <+: text) (hpid : pid < 2 ^ 31) :
    extractInt text = some (pid : ℤ) := by
  obtain ⟨rest, rfl⟩ := h
  have hdig : ∀ c ∈ Nat.toDigits 10 pid, c.isDigit = true :=
    fun _ => Lib.Integers.isDigit_of_mem_toDigits
  have hfield : field (record pid ++ rest) = (false, Nat.toDigits 10 pid) := by
    unfold record
    rw [List.append_assoc]
    exact field_append Nat.toDigits_ne_nil hdig (by decide)
  have hvalue : value (Nat.toDigits 10 pid) = pid := Nat.ofDigitChars_ten_toDigits
  have hnumber : number (false, Nat.toDigits 10 pid) = pid := by
    unfold number
    rw [if_neg (by simp), hvalue]
  unfold extractInt
  rw [hfield]
  dsimp only
  rw [if_neg Nat.toDigits_ne_nil, hnumber, if_neg (by omega)]

end PidFile

/-- **The number in the pid file is the pid of the svd that holds its lock**,
whatever was in the file. -/
theorem pid_file_names_holder {names : List Char → ℕ} {content : ℕ → List Char} {es : List Event}
    (hcomplete : ∀ e ∈ es, Complete e) {pid file : ℕ} {p : Proc} {t : Task} (hpid : pid < 2 ^ 31)
    (hp : (run step (boot names content) es).procs pid = some p)
    (hrun : p.phase = .running t file) :
    extractInt ((run step (boot names content) es).content file) = some (pid : ℤ) :=
  extractInt_record (recorded_run hcomplete pid p file hp (by rw [hrun]; rfl)) hpid

/-- What an older svd left in the file. -/
def leftover : List Char := "99\n1234\n".toList

/-! ### Who gets the lock -/

/-- The calls of `kick`, when they all succeed. -/
def attempt (pid : ℕ) (arg : Argument) : List Event :=
  [.kick pid arg true true, .setuid pid true, .openFile pid true, .lockf pid true,
    .writePid pid (record pid).length, .exec pid true]

/-- The system with the svd of a new process. -/
def State.spawned (s : State) (pid : ℕ) (arg : Argument) : State :=
  let file := s.names (lockName arg)
  { s with
    procs := Function.update s.procs pid (some ⟨arg, uid arg, .running (task arg) file⟩)
    content := Function.update s.content file (overwrite (s.content file) (record pid))
    locks := Function.update s.locks file (some pid) }

section Attempt

variable {s : State} {pid : ℕ} {arg : Argument}

theorem procs_spawned : (s.spawned pid arg).procs pid =
    some ⟨arg, uid arg, .running (task arg) (s.names (lockName arg))⟩ := by
  unfold State.spawned
  exact Function.update_self ..

theorem procs_spawned_of_ne {q : ℕ} (h : q ≠ pid) : (s.spawned pid arg).procs q = s.procs q := by
  unfold State.spawned
  exact Function.update_of_ne h ..

theorem step_kick (h : s.procs pid = none) (root installed : Bool) :
    step s (.kick pid arg root installed) = main s pid arg root installed := by
  show (match s.procs pid with | none => main s pid arg root installed | some _ => s) = _
  rw [h]

/-- The next call of a process. -/
theorem step_go {e : Event} (p : Proc) (he : e.pid = some pid) :
    step (s.go pid p) e = call (s.go pid p) pid p e := by
  have hself : (s.go pid p).procs pid = some p := Function.update_self ..
  cases e with
  | rename name file => cases he
  | _ =>
    cases he
    simp only [step, Event.pid, hself]
    try rfl

@[simp] theorem go_go (p q : Proc) : (s.go pid p).go pid q = s.go pid q := by
  unfold State.go
  rw [Function.update_idem]

/-- The process as it comes to `spawnBackgroundTask`, and as it comes to the lock. -/
theorem run_opened (h : s.procs pid = none) :
    run step s [.kick pid arg true true, .setuid pid true, .openFile pid true] =
      s.go pid ⟨arg, uid arg, .locking (decide (uid arg = 0)) (s.names (lockName arg))⟩ := by
  have hsetuid : run step s [.kick pid arg true true, .setuid pid true] =
      s.go pid ⟨arg, uid arg, .opening (decide (uid arg = 0))⟩ := by
    rw [run_cons, run_cons, run_nil, step_kick h]
    show step (s.go pid _) _ = _
    rw [step_go _ rfl]
    by_cases h0 : uid arg = 0
    · simp only [h0, if_true, call, decide_true]
    · simp only [h0, if_false, call, decide_false, if_true, go_go]
  show run step s ([.kick pid arg true true, .setuid pid true] ++ [.openFile pid true]) = _
  rw [run_append, hsetuid, run_cons, run_nil, step_go _ rfl]
  simp only [call, if_true, go_go]
  rfl

/-- From the lock to the svd. -/
theorem run_locked (u : BitVec 32) (again : Bool) {file : ℕ} (hfree : s.locks file = none) :
    run step (s.go pid ⟨arg, u, .locking again file⟩)
      [.lockf pid true, .writePid pid (record pid).length, .exec pid true] =
      { s with
        procs := Function.update s.procs pid (some ⟨arg, u, .running (task arg) file⟩)
        content := Function.update s.content file (overwrite (s.content file) (record pid))
        locks := Function.update s.locks file (some pid) } := by
  have hlock : call (s.go pid ⟨arg, u, .locking again file⟩) pid ⟨arg, u, .locking again file⟩
      (.lockf pid true) =
      State.go { s with locks := Function.update s.locks file (some pid) } pid
        ⟨arg, u, .writing again file⟩ := by
    simp only [call, if_true, State.go, take_free hfree, Function.update_idem]
  have hwrite : ∀ t : State,
      call (t.go pid ⟨arg, u, .writing again file⟩) pid ⟨arg, u, .writing again file⟩
      (.writePid pid (record pid).length) =
      State.go
        { t with
          content := Function.update t.content file (overwrite (t.content file) (record pid)) } pid
        ⟨arg, u, .executing again file⟩ := by
    intro t
    simp only [call, List.take_length, State.go, Function.update_idem]
  have hexec : ∀ t : State, call (t.go pid ⟨arg, u, .executing again file⟩) pid
    ⟨arg, u, .executing again file⟩
      (.exec pid true) = t.go pid ⟨arg, u, .running (task arg) file⟩ := by
    intro t
    simp only [call, if_true, go_go]
  rw [run_cons, step_go _ rfl, hlock, run_cons, step_go _ rfl, hwrite, run_cons, step_go _ rfl,
    hexec, run_nil]
  rfl

/-- A process that does not get the lock is gone. -/
theorem run_refused (hinv : Inv s) (h : s.procs pid = none) (u : BitVec 32)
    (again : Bool) {file : ℕ} (hheld : s.locks file ≠ none) :
    run step (s.go pid ⟨arg, u, .locking again file⟩)
      [.lockf pid true, .writePid pid (record pid).length, .exec pid true] =
      { s with exits := (pid, .cannotLock) :: s.exits } := by
  have hnot : ∀ g, s.locks g ≠ some pid := fun g hg => hinv.live g pid hg h
  obtain ⟨q, hq⟩ := Option.ne_none_iff_exists'.mp hheld
  have hne : q ≠ pid := fun hc => hnot file (hc ▸ hq)
  have hexit : call (s.go pid ⟨arg, u, .locking again file⟩) pid ⟨arg, u, .locking again file⟩
    (.lockf pid true) =
      { s with exits := (pid, .cannotLock) :: s.exits } := by
    have hprocs : Function.update s.procs pid none = s.procs := by rw [← h, Function.update_eq_self]
    simp only [call, if_true, State.go, take_held hq hne, State.exit, State.die,
      Function.update_idem, hprocs, release_of_not_held hnot]
  have hstill : ∀ e : Event, e.pid = some pid →
    (∀ arg root installed, e ≠ .kick pid arg root installed) →
      step { s with exits := (pid, .cannotLock) :: s.exits } e =
      { s with exits := (pid, .cannotLock) :: s.exits } := by
    intro e he hkick
    cases e with
    | kick pid' a root installed => cases he; exact absurd rfl (hkick a root installed)
    | rename name file => cases he
    | _ =>
      cases he
      simp only [step, Event.pid, h]
  rw [run_cons, step_go _ rfl, hexit, run_cons, hstill (.writePid ..) rfl nofun, run_cons,
    hstill (.exec ..) rfl nofun, run_nil]

theorem run_attempt (hinv : Inv s) (h : s.procs pid = none) :
    run step s (attempt pid arg) =
      if s.locks (s.names (lockName arg)) = none then s.spawned pid arg
      else { s with exits := (pid, .cannotLock) :: s.exits } := by
  show run step s ([.kick pid arg true true, .setuid pid true, .openFile pid true] ++
    [.lockf pid true, .writePid pid (record pid).length, .exec pid true]) = _
  rw [run_append, run_opened h]
  split_ifs with hfree
  · exact run_locked (uid arg) _ hfree
  · exact run_refused hinv h (uid arg) _ hfree

end Attempt

/-- **A kick whose calls succeed runs its svd unless another process holds the lock, and else
changes nothing** but its own exit, in every state that the system reaches. -/
theorem kick_outcome {names : List Char → ℕ} {content : ℕ → List Char} {es : List Event} {s : State}
    (hs : run step (boot names content) es = s) {pid : ℕ} {arg : Argument}
    (hpid : s.procs pid = none) :
    run step s (attempt pid arg) =
      if s.locks (s.names (lockName arg)) = none then s.spawned pid arg
      else { s with exits := (pid, .cannotLock) :: s.exits } :=
  run_attempt (hs ▸ inv_run (inv_boot names content) es) hpid

/-- The second of two kicks is refused. -/
theorem kick_outcome_twice :
    run step (run step (boot (fun _ => 0) fun _ => leftover) (attempt 45 none)) (attempt 46 none) =
      { (boot (fun _ => 0) fun _ => leftover).spawned 45 none with
        exits := [(46, .cannotLock)] } := by
  have hone : run step (boot (fun _ => 0) fun _ => leftover) (attempt 45 none) =
      (boot (fun _ => 0) fun _ => leftover).spawned 45 none :=
        (run_attempt (inv_boot _ _) rfl).trans (if_pos rfl)
  have hfree : (run step (boot (fun _ => 0) fun _ => leftover) (attempt 45 none)).procs
    46 = none := by
    rw [hone, procs_spawned_of_ne (by omega)]
    rfl
  have hheld : ((boot (fun _ => 0) fun _ => leftover).spawned 45 none).locks 0 ≠ none := by decide
  rw [kick_outcome rfl hfree, hone]
  exact if_neg hheld

/-- The pid is read from a file that held more. -/
theorem pid_file_names_holder_leftover :
    extractInt ((run step (boot (fun _ => 0) fun _ => leftover) (attempt 45 none)).content 0) =
      some 45 := by
  have hone : run step (boot (fun _ => 0) fun _ => leftover) (attempt 45 none) =
      (boot (fun _ => 0) fun _ => leftover).spawned 45 none :=
        (run_attempt (inv_boot _ _) rfl).trans (if_pos rfl)
  have hp : (run step (boot (fun _ => 0) fun _ => leftover) (attempt 45 none)).procs 45 =
      some ⟨none, uid none, .running (task none) 0⟩ := by
    rw [hone, procs_spawned]
    rfl
  refine pid_file_names_holder (fun e he => ?_) (by decide) hp rfl
  simp only [attempt, List.mem_cons, List.not_mem_nil, or_false] at he
  rcases he with rfl | rfl | rfl | rfl | rfl | rfl
  case inr.inr.inr.inr.inl => exact Nat.le_refl _
  all_goals exact trivial

/-! ### One svd for each uid -/

/-- Kicks of the arguments in `A`, whose pid files stay where they are. -/
def Keeps (A : Set Argument) : Event → Prop
  | .kick _ arg _ _ => arg ∈ A
  | .rename name _ => ∀ arg ∈ A, name ≠ lockName arg
  | _ => True

/-- Two svds never run as one user. -/
def OnePerUid (A : Set Argument) : Prop :=
  ∀ (names : List Char → ℕ) (content : ℕ → List Char) (es : List Event), (∀ e ∈ es, Keeps A e) →
    ∀ (pid pid' : ℕ) (p p' : Proc) (t t' : Task) (file file' : ℕ),
      (run step (boot names content) es).procs pid = some p → p.phase = .running t file →
      (run step (boot names content) es).procs pid' = some p' → p'.phase = .running t' file' →
      p.user = p'.user → pid = pid'

/-- The file that a process has opened. -/
def Phase.opened : Phase → Option ℕ
  | .locking _ file | .writing _ file | .executing _ file | .running _ file => some file
  | _ => none

/-- The processes were kicked with arguments in `A`, and have opened what was named after these. -/
structure Named (A : Set Argument) (names : List Char → ℕ) (s : State) : Prop where
  kept : ∀ arg ∈ A, s.names (lockName arg) = names (lockName arg)
  mem : ∀ pid p, s.procs pid = some p → p.arg ∈ A
  file : ∀ pid p file, s.procs pid = some p → p.phase.opened = some file →
    file = names (lockName p.arg)

section Uid

variable {A : Set Argument} {names : List Char → ℕ} {s : State} {pid : ℕ} {p : Proc}

theorem Named.go (h : Named A names s) (hmem : p.arg ∈ A)
    (hfile : ∀ file, p.phase.opened = some file → file = names (lockName p.arg)) :
    Named A names (s.go pid p) where
  kept := h.kept
  mem := fun q p' hp' => by
    rcases procs_go hp' with ⟨-, rfl⟩ | ⟨-, hp'⟩
    · exact hmem
    · exact h.mem q p' hp'
  file := fun q p' file hp' hf => by
    rcases procs_go hp' with ⟨-, rfl⟩ | ⟨-, hp'⟩
    · exact hfile file hf
    · exact h.file q p' file hp' hf

theorem Named.die (h : Named A names s) (pid : ℕ) : Named A names (s.die pid) where
  kept := h.kept
  mem := fun q p' hp' => h.mem q p' (procs_die hp').2
  file := fun q p' file hp' => h.file q p' file (procs_die hp').2

theorem Named.change {e : Event} {s' : State} (h : Named A names s) (he : Keeps A e)
    (hc : Change s e s') :
    Named A names s' := by
  cases hc with
  | same => exact h
  | renamed name file =>
    refine ⟨fun arg harg => ?_, h.mem, h.file⟩
    show Function.update s.names name file (lockName arg) = _
    rw [Function.update_of_ne (he arg harg).symm]
    exact h.kept arg harg
  | refused pid arg root installed code => exact ⟨h.kept, h.mem, h.file⟩
  | started pid arg hfree =>
    refine h.go he fun file hf => ?_
    dsimp only at hf
    split_ifs at hf
    · cases hf
    · cases hf
  | became pid p hp hphase => exact h.go (h.mem pid p hp) fun file hf => by cases hf
  | opened pid p again hp hphase =>
    refine h.go (h.mem pid p hp) fun file hf => ?_
    cases hf
    exact h.kept p.arg (h.mem pid p hp)
  | locked pid p again file locks hp hphase htake =>
    have hgo : Named A names (s.go pid { p with phase := .writing again file }) :=
      h.go (h.mem pid p hp) fun g hf => h.file pid p g hp (by rw [hphase]; exact hf)
    exact ⟨hgo.kept, hgo.mem, hgo.file⟩
  | wrote pid n p again file hp hphase =>
    have hgo : Named A names (s.go pid { p with phase := .executing again file }) :=
      h.go (h.mem pid p hp) fun g hf => h.file pid p g hp (by rw [hphase]; exact hf)
    exact ⟨hgo.kept, hgo.mem, hgo.file⟩
  | executed pid p again file hp hphase =>
    exact h.go (h.mem pid p hp) fun g hf => h.file pid p g hp (by rw [hphase]; exact hf)
  | retried pid p file hp hphase => exact h.go (h.mem pid p hp) fun g hf => by cases hf
  | died pid p hp => exact h.die pid
  | exited _ pid p code hp => exact ⟨(h.die pid).kept, (h.die pid).mem, (h.die pid).file⟩

theorem named_run {content : ℕ → List Char} {es : List Event} (h : ∀ e ∈ es, Keeps A e) :
    Named A names (run step (boot names content) es) :=
  run_invariant_of (P := Named A names) (fun s e hs he => hs.change he (change_step s e)) h
    ⟨fun _ _ => rfl, fun pid p hp => (by cases hp), fun pid p file hp => (by cases hp)⟩

/-- A name tells the argument. -/
theorem lockName_injective : Function.Injective lockName := by
  intro a b h
  have hne : ∀ s : CString, lockName none ≠ lockName (some s) := by
    intro s hs
    have hsystem : SYSTEMUSERS_HOME_DIR = '/' :: 'S' :: "ystemUsers".toList := by decide
    have husers : USERS_HOME_DIR = '/' :: 'U' :: "sers".toList := by decide
    simp only [lockName, homeDir, hsystem, husers, List.cons_append] at hs
    exact absurd (List.cons.inj (List.cons.inj hs).2).1 (by decide)
  cases a with
  | none =>
    cases b with
    | none => rfl
    | some t => exact absurd h (hne t)
  | some s =>
    cases b with
    | none => exact absurd h.symm (hne s)
    | some t =>
      have hlen := congrArg List.length h
      simp only [lockName, homeDir, svdArg, List.length_append, List.length_cons] at hlen
      have hlen' : s.chars.length = t.chars.length := by omega
      simp only [lockName, homeDir, svdArg, List.append_assoc, List.cons_append] at h
      have htail := List.append_cancel_left h
      have hchars := (List.append_inj (List.cons.inj htail).2 hlen').1
      cases s
      cases t
      cases hchars
      rfl

end Uid

theorem onePerUid_iff_injOn (A : Set Argument) : OnePerUid A ↔ Set.InjOn uid A := by
  constructor
  · intro h a ha b hb hab
    by_contra hne
    -- The second svd gets the lock of another file.
    let names : List Char → ℕ := fun name => if name = lockName a then 0 else 1
    have hname : lockName b ≠ lockName a := fun hc => hne (lockName_injective hc).symm
    let s : State := boot names fun _ => []
    have hinv : Inv (run step s (attempt 1 a)) := inv_run (inv_boot _ _) _
    have hone : run step s (attempt 1 a) = s.spawned 1 a :=
      (run_attempt (inv_boot _ _) rfl).trans (if_pos rfl)
    rw [hone] at hinv
    have hna : s.names (lockName a) = 0 := if_pos rfl
    have hnb : s.names (lockName b) = 1 := if_neg hname
    have hfree : (s.spawned 1 a).locks ((s.spawned 1 a).names (lockName b)) = none := by
      show Function.update s.locks (s.names (lockName a)) (some 1) (s.names (lockName b)) = none
      rw [hna, hnb, Function.update_of_ne (by omega)]
      rfl
    have hgone : (s.spawned 1 a).procs 2 = none := procs_spawned_of_ne (by omega)
    have htwo : run step (s.spawned 1 a) (attempt 2 b) = (s.spawned 1 a).spawned 2 b :=
      (run_attempt hinv hgone).trans (if_pos hfree)
    have hrun : run step s (attempt 1 a ++ attempt 2 b) = (s.spawned 1 a).spawned 2 b := by
      rw [run_append, hone, htwo]
    have hkeeps : ∀ e ∈ attempt 1 a ++ attempt 2 b, Keeps A e := by
      intro e he
      simp only [attempt, List.cons_append, List.nil_append, List.mem_cons, List.not_mem_nil,
        or_false] at he
      rcases he with rfl | rfl | rfl | rfl | rfl | rfl | rfl | rfl | rfl | rfl | rfl | rfl
      case inl => exact ha
      case inr.inr.inr.inr.inr.inr.inl => exact hb
      all_goals exact trivial
    have hp1 : (run step s (attempt 1 a ++ attempt 2 b)).procs 1 =
        some ⟨a, uid a, .running (task a) (s.names (lockName a))⟩ := by
      rw [hrun, procs_spawned_of_ne (by omega), procs_spawned]
    have hp2 : (run step s (attempt 1 a ++ attempt 2 b)).procs 2 =
        some ⟨b, uid b, .running (task b) (s.names (lockName b))⟩ := by
      rw [hrun, procs_spawned]
      rfl
    have hsame := h names (fun _ => []) _ hkeeps 1 2 _ _ _ _ _ _ hp1 rfl hp2 rfl hab
    omega
  · intro h names content es hes pid pid' p p' t t' file file' hp hrun hp' hrun' huser
    have hinv := inv_run (inv_boot names content) es
    have hnamed : Named A names (run step (boot names content) es) := named_run hes
    have hu := hinv.safe.user pid p t file hp hrun
    have hu' := hinv.safe.user pid' p' t' file' hp' hrun'
    have harg : p.arg = p'.arg :=
      h (hnamed.mem pid p hp) (hnamed.mem pid' p' hp') (by rw [← hu, ← hu', huser])
    have hfile : file = file' := by
      rw [hnamed.file pid p file hp (by rw [hrun]; rfl), hnamed.file pid' p' file' hp'
        (by rw [hrun']; rfl), harg]
    exact hinv.safe.alone pid pid' file ⟨p, hp, by rw [hrun]; rfl⟩
      ⟨p', hp', by rw [hrun', hfile]; rfl⟩

/-- **No two svds run as one user exactly when no two of the arguments denote one uid**,
for `atoi`. -/
theorem one_per_uid_iff (A : Set Argument) : OnePerUid A ↔ Set.InjOn uid A := onePerUid_iff_injOn A

example : uid (some ⟨"1000".toList, by decide⟩) = uid (some ⟨"01000".toList, by decide⟩) := by
  decide

/-- No argument, for root, and the numerals of the other uids. -/
def numerals : Set Argument :=
  {arg | arg = none ∨ ∃ n s, 0 < n ∧ n < 2 ^ 32 ∧ arg = some s ∧ s.chars = Nat.toDigits 10 n}

theorem uid_numeral {s : CString} {n : ℕ} (hn : n < 2 ^ 32) (hs : s.chars = Nat.toDigits 10 n) :
    uid (some s) = BitVec.ofNat 32 n := by
  have hdig : ∀ c ∈ s.chars, c.isDigit = true :=
    fun c hc => Lib.Integers.isDigit_of_mem_toDigits (hs ▸ hc)
  have hden : denotes s = some n := by
    unfold denotes
    have hvalue : value (Nat.toDigits 10 n) = n := Nat.ofDigitChars_ten_toDigits
    rw [if_pos ⟨hs ▸ Nat.toDigits_ne_nil, List.all_eq_true.mpr hdig⟩, hs, hvalue]
  exact Except.ok.inj (kick_denotes hden hn)

theorem onePerUid_numerals : OnePerUid numerals := by
  refine (onePerUid_iff_injOn numerals).mpr ?_
  have hroot : uid none = 0 := by decide
  have hne : ∀ {n : ℕ}, 0 < n → n < 2 ^ 32 → BitVec.ofNat 32 n ≠ 0 := by
    intro n hpos hn hc
    have := congrArg BitVec.toNat hc
    rw [BitVec.toNat_ofNat, Nat.mod_eq_of_lt hn] at this
    exact absurd this (by show n ≠ 0; omega)
  rintro a (rfl | ⟨n, s, hpos, hn, rfl, hs⟩) b (rfl | ⟨m, t, hpos', hm, rfl, ht⟩) huid
  · rfl
  · rw [hroot, uid_numeral hm ht] at huid
    exact absurd huid.symm (hne hpos' hm)
  · rw [hroot, uid_numeral hn hs] at huid
    exact absurd huid (hne hpos hn)
  · rw [uid_numeral hn hs, uid_numeral hm ht] at huid
    have hnm := congrArg BitVec.toNat huid
    rw [BitVec.toNat_ofNat, BitVec.toNat_ofNat, Nat.mod_eq_of_lt hn, Nat.mod_eq_of_lt hm] at hnm
    subst hnm
    cases s
    cases t
    cases hs.trans ht.symm
    rfl

end ServeD.Launchers.Kickstart
