import ServeD.Lib.Words

/-! # Arguments of the launchers

`main` of `daemon.cc` and `run.cc` from the arguments to `execvp`, with `parse` of `utils.cc`. Both
launchers write their arguments into one line, with a blank between them, and have `parse` cut the
line again: in place, with pointers to the words stored in an array of `argc` entries.

The words that `parse` finds are those of `Lib.Words` (`strings_parse`), so a launcher executes the
command it was given exactly when its arguments can be told apart in the line (`Separable`); and the
daemon never has room for the pointers of its default command (`launchers_iff`). -/

namespace ServeD.Launchers.Arguments

open ServeD.Lib.Words

/-! ### Strings -/

/-- A string of C, without the `'\x00'` at its end. -/
structure CString where
  chars : List Char
  noNul : '\x00' ∉ chars

/-- `argv` of a launcher that was given its first argument. -/
structure Argv where
  program : CString
  first : CString
  rest : List CString

namespace Argv

def argc (argv : Argv) : ℕ := argv.rest.length + 2

/-- The characters of `argv[2]`, `argv[3]`, … -/
def args (argv : Argv) : List (List Char) := argv.rest.map (·.chars)

end Argv

/-- `*line == ' ' || *line == '\t' || *line == '\n'`. -/
def isBlank (c : Char) : Bool := c == ' ' || c == '\t' || c == '\n'

/-- The loop of `parse` at the address `pos`, inside a word or before one: what is left in memory
from there, and the pointers it stores. Blanks are overwritten, and a pointer is stored where a word
begins, or at the end of the line when blanks led to it. -/
def parseFrom (pos : ℕ) (inWord : Bool) : List Char → List Char × List ℕ
  | [] => ([], if inWord then [] else [pos])
  | c :: cs =>
    if isBlank c then
      let r := parseFrom (pos + 1) false cs
      ('\x00' :: r.1, r.2)
    else
      let r := parseFrom (pos + 1) true cs
      (c :: r.1, if inWord then r.2 else pos :: r.2)

/-- `parse(line, argv)`, on a line at address 0: the line afterwards, and the pointers before the
final `NULL`. -/
def parse : List Char → List Char × List ℕ
  | [] => ([], [])
  | c :: cs => parseFrom 0 false (c :: cs)

/-- The string at an address. -/
def stringAt (memory : List Char) (p : ℕ) : List Char := (memory.drop p).takeWhile (· ≠ '\x00')

/-- The vector that `execvp` gets. -/
def vector (command : List Char) : List (List Char) :=
  (parse command).2.map (stringAt ((parse command).1 ++ ['\x00']))

/-- How many entries of `arguments` are written, with the final `NULL`. -/
def entries (command : List Char) : ℕ := (parse command).2.length + 1

/-! ### The launchers -/

/-- The loop over `argv[2]`, …: a blank follows every argument but the last. -/
def appArguments : List (List Char) → List Char
  | [] => []
  | a :: rest => a ++ (if rest.isEmpty then [] else [' ']) ++ appArguments rest

def defaultShellCommand : List Char := "/Software/Zsh/exports/zsh".toList

/-- `command` of the daemon. -/
def daemonCommand (argv : Argv) : List Char :=
  if argv.argc > 2 then appArguments argv.args else defaultShellCommand ++ " -i -s".toList

/-- `command` of the runner, with the path that `findpathof` found. -/
def runnerCommand (path : CString) (argv : Argv) : List Char :=
  if argv.argc > 2 then path.chars ++ " ".toList ++ appArguments argv.args else path.chars

/-- The command that the daemon was given. -/
def daemonGiven (argv : Argv) : List (List Char) :=
  if argv.argc > 2 then argv.args else [defaultShellCommand, "-i".toList, "-s".toList]

/-- The launcher passes the command that was given, and stays inside the array. -/
structure Executes (command : List Char) (given : List (List Char)) (argc : ℕ) : Prop where
  vector : vector command = given
  bound : entries command ≤ argc

/-- The arguments can be told apart in the line: no blanks in them, none but the last empty, and not
an empty one alone. -/
def Separable (args : List (List Char)) : Prop :=
  (∀ a ∈ args, ∀ c ∈ a, isBlank c = false) ∧ (∀ a ∈ args.dropLast, a ≠ []) ∧ args ≠ [[]]

/-! ### The words in memory -/

/-- Reading the pointers back, behind the part `pre` of the memory. -/
theorem strings_parseFrom : ∀ (cs pre : List Char), '\x00' ∉ cs →
    (parseFrom pre.length false cs).2.map
        (stringAt (pre ++ ((parseFrom pre.length false cs).1 ++ ['\x00']))) =
          scan isBlank false cs ∧
    ((parseFrom pre.length true cs).1 ++ ['\x00']).takeWhile (· ≠ '\x00') ::
        (parseFrom pre.length true cs).2.map
          (stringAt (pre ++ ((parseFrom pre.length true cs).1 ++ ['\x00']))) = scan isBlank true cs
  | [], pre, _ => by simp [parseFrom, stringAt, scan]
  | c :: cs, pre, h => by
    have hc : c ≠ '\x00' := fun he => h (by simp [he])
    have ih := fun d => strings_parseFrom cs (pre ++ [d]) fun hm => h (List.mem_cons_of_mem c hm)
    simp only [List.length_append, List.length_singleton, List.append_assoc,
      List.singleton_append] at ih
    by_cases hb : isBlank c = true
    · simp only [parseFrom, scan, hb, if_true]
      refine ⟨by simpa using (ih '\x00').1, ?_⟩
      have hf := (ih '\x00').1
      simp only [List.cons_append] at hf ⊢
      rw [hf]
      simp
    · -- a word goes on, or begins here
      have hb' : isBlank c = false := by simpa using hb
      simp only [parseFrom, scan, hb', Bool.false_eq_true, if_false, if_true, List.cons_append,
        List.map_cons, ← (ih c).2, consHead]
      refine ⟨?_, ?_⟩
      · simp [stringAt, hc]
      · simp [hc]

/-- **The words that `parse` leaves in memory.** -/
theorem strings_parse {line : List Char} (h : '\x00' ∉ line) :
    vector line = words isBlank line := by
  rcases line with _ | ⟨c, cs⟩
  · rfl
  · exact (strings_parseFrom (c :: cs) [] h).1

theorem entries_eq {line : List Char} (h : '\x00' ∉ line) :
    entries line = (words isBlank line).length + 1 := by
  rw [← strings_parse h, vector, List.length_map, entries]

/-! ### The lines -/

theorem appArguments_eq : ∀ (args : List (List Char)), appArguments args = join ' ' args
  | [] => rfl
  | [a] => by simp [appArguments, join]
  | a :: b :: rest => by
    rw [appArguments, appArguments_eq (b :: rest), join]
    simp

theorem not_mem_join : ∀ {args : List (List Char)}, (∀ a ∈ args, '\x00' ∉ a) →
    '\x00' ∉ join ' ' args
  | [], _ => by simp [join]
  | [a], h => h a (by simp)
  | a :: b :: rest, h => by
    have ih : '\x00' ∉ join ' ' (b :: rest) := not_mem_join fun d hd =>
      h d (List.mem_cons_of_mem a hd)
    rw [join, List.mem_append, List.mem_cons]
    rintro (hm | hm | hm)
    · exact h a (by simp) hm
    · exact absurd hm (by decide)
    · exact ih hm

theorem noNul_args (argv : Argv) : ∀ a ∈ argv.args, '\x00' ∉ a := by
  intro a ha
  obtain ⟨s, -, rfl⟩ := List.mem_map.mp ha
  exact s.noNul

/-- A line of joined arguments. -/
theorem executes_join {args : List (List Char)} (h : ∀ a ∈ args, '\x00' ∉ a) {argc : ℕ}
    (hargc : args.length + 1 ≤ argc) : Executes (join ' ' args) args argc ↔ Separable args := by
  have hwords : words isBlank (join ' ' args) = args ↔ Separable args := words_join rfl args
  have hnul := not_mem_join h
  constructor
  · intro he
    exact hwords.mp (strings_parse hnul ▸ he.vector)
  · intro hs
    have hw := hwords.mpr hs
    refine ⟨(strings_parse hnul).trans hw, ?_⟩
    rw [entries_eq hnul, hw]
    exact hargc

theorem runnerCommand_eq (path : CString) (argv : Argv) :
    runnerCommand path argv = join ' ' (path.chars :: argv.args) := by
  unfold runnerCommand Argv.argc Argv.args
  rcases argv.rest with _ | ⟨a, rest⟩
  · rfl
  · rw [if_pos (by simp), appArguments_eq, List.map_cons, join]
    simp

/-- **A launcher executes the command it was given exactly when the arguments can be told apart**,
and the daemon only if it was given a command: its default has three words, and `arguments` two
entries. -/
theorem launchers_iff (argv : Argv) :
    (Executes (daemonCommand argv) (daemonGiven argv) argv.argc ↔
      argv.rest ≠ [] ∧ Separable argv.args) ∧
    ∀ path : CString, Executes (runnerCommand path argv) (path.chars :: argv.args) argv.argc ↔
      Separable (path.chars :: argv.args) := by
  have hlen : argv.args.length + 2 = argv.argc := by simp [Argv.args, Argv.argc]
  constructor
  · by_cases hrest : argv.rest = []
    · have hargc : argv.argc = 2 := by simp [Argv.argc, hrest]
      refine iff_of_false (fun he => ?_) fun h => h.1 hrest
      have hb := he.bound
      rw [daemonCommand, hargc, if_neg (by decide)] at hb
      exact absurd hb (by decide)
    · have hargc : argv.argc > 2 := by
        have := List.length_pos_of_ne_nil hrest
        unfold Argv.argc; omega
      rw [daemonCommand, daemonGiven, if_pos hargc, if_pos hargc, appArguments_eq,
        executes_join (noNul_args argv) (by omega)]
      exact (and_iff_right hrest).symm
  · intro path
    rw [runnerCommand_eq]
    refine executes_join (fun a ha => ?_) (by rw [List.length_cons]; omega)
    rcases List.mem_cons.mp ha with rfl | ha
    · exact path.noNul
    · exact noNul_args argv a ha

/-- `svddaemon 501`. -/
def daemonAlone : Argv := ⟨⟨"svddaemon".toList, by decide⟩, ⟨"501".toList, by decide⟩, []⟩

/-- `svdrun ls 'a b'`. -/
def runnerBlank : Argv :=
  ⟨⟨"svdrun".toList, by decide⟩, ⟨"ls".toList, by decide⟩, [⟨"a b".toList, by decide⟩]⟩

/-- The daemon writes four entries into an array of two,
and the runner passes two arguments for one. -/
theorem not_executes_blank :
    entries (daemonCommand daemonAlone) = 4 ∧ daemonAlone.argc = 2 ∧
      ¬ Executes (daemonCommand daemonAlone) (daemonGiven daemonAlone) daemonAlone.argc ∧
      ¬ Executes (runnerCommand ⟨"/bin/ls".toList, by decide⟩ runnerBlank)
        ("/bin/ls".toList :: runnerBlank.args) runnerBlank.argc := by
  refine ⟨by decide, rfl, fun h => ?_, fun h => ?_⟩
  · exact absurd h.bound (by decide)
  · exact absurd h.vector (by decide)

end ServeD.Launchers.Arguments
