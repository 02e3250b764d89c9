import ServeD.Lib.Segments
import ServeD.Lib.Runs
import ServeD.Lib.Texts
import Mathlib.Data.Nat.Notation

/-! # Levels of the loggers

`LoggingMachine` of `Logging.scala`. The table of levels starts with the entries of the properties
file; `addEntry`, `removeEntry` and `clear` change it, and `levelFor` looks up a class name, then
the name without its last segment, and so on. `lastAdded` says what the table has by the history of
changes alone, and `levelFor_eq` puts the two together. -/

namespace ServeD.Utils.Logging

open ServeD.Lib.Segments ServeD.Lib.Runs ServeD.Lib.Texts

/-- `Logger.Levels`. -/
inductive Level where
  | error
  | warn
  | info
  | debug
  | trace
deriving Repr, DecidableEq

/-- The place of a level in the enumeration. -/
def Level.id : Level → ℕ
  | .error => 0
  | .warn => 1
  | .info => 2
  | .debug => 3
  | .trace => 4

/-- The table of the machine. -/
abbrev Config := Std.TreeMap Text Level

/-- `levelsMapping`. -/
def levelsMapping (str : Text) : Option Level :=
  if str = "trace".toList then some .trace
  else if str = "debug".toList then some .debug
  else if str = "info".toList then some .info
  else if str = "warn".toList then some .warn
  else if str = "error".toList then some .error
  else none

/-! ### The machine -/

section Machine

variable (toLowerCase : Text → Text)

/-- `readDefaults`; `data` are the pairs of the properties file,
if there is one that can be read. -/
def readDefaults (data : Option (List (Text × Text))) : Config :=
  match data with
  | none => ∅
  | some pairs => pairs.foldl (fun config p =>
      match levelsMapping (toLowerCase p.2) with
      | some level => config.insert p.1 level
      | none => config) ∅

/-- The calls that change the table. -/
inductive Event where
  | addEntry (className : Text) (level : Level)
  | removeEntry (className : Text)
  | clear
deriving Repr, DecidableEq

/-- `addEntry`, `removeEntry` and `clear`. -/
def step (config : Config) : Event → Config
  | .addEntry className level => config.insert className level
  | .removeEntry className => config.erase className
  | .clear => ∅

/-- `_level`. -/
def level (config : Config) : List Text → Option Level := lookup (fun name => config[name]?) '.'

/-- `levelFor`. -/
def levelFor (config : Config) (className : Text) : Level :=
  (level config (split '.' className).reverse).getD .trace

/-- `log` shows a message of this level. -/
def logs (config : Config) (lvl : Level) (className : Text) : Bool :=
  decide (lvl.id ≤ (levelFor config className).id)

/-! ### The history -/

/-- The call says something about the name. -/
def Event.concerns (n : Text) : Event → Bool
  | .addEntry className _ => className == n
  | .removeEntry className => className == n
  | .clear => true

/-- The level that the last call about the name gave it, if that call added it. -/
def lastAdded (h : List Event) (n : Text) : Option Level :=
  match h.reverse.find? (Event.concerns n) with
  | some (.addEntry _ level) => some level
  | _ => none

/-- The entries of the properties file, as the first calls. -/
def defaultEntries (data : Option (List (Text × Text))) : List Event :=
  (data.getD []).filterMap fun p => (levelsMapping (toLowerCase p.2)).map fun level =>
    .addEntry p.1 level

/-- One call more. -/
theorem lastAdded_concat (h : List Event) (e : Event) (n : Text) :
    lastAdded (h ++ [e]) n =
      match e with
      | .addEntry className level => if className = n then some level else lastAdded h n
      | .removeEntry className => if className = n then none else lastAdded h n
      | .clear => none := by
  unfold lastAdded
  rw [List.reverse_append, List.reverse_singleton, List.singleton_append, List.find?_cons]
  rcases e with ⟨className, level⟩ | ⟨className⟩ | _
  · rcases eq_or_ne className n with rfl | hne
    · simp [Event.concerns]
    · have hb : (className == n) = false := by simpa using hne
      simp [Event.concerns, hb, hne]
  · rcases eq_or_ne className n with rfl | hne
    · simp [Event.concerns]
    · have hb : (className == n) = false := by simpa using hne
      simp [Event.concerns, hb, hne]
  · rfl

/-- The table after one call. -/
theorem getElem?_step (config : Config) (e : Event) (n : Text) :
    (step config e)[n]? =
      match e with
      | .addEntry className level => if className = n then some level else config[n]?
      | .removeEntry className => if className = n then none else config[n]?
      | .clear => none := by
  rcases e with ⟨className, level⟩ | ⟨className⟩ | _
  · show (config.insert className level)[n]? = _
    simp only [Std.TreeMap.getElem?_insert, Std.LawfulEqOrd.compare_eq_iff_eq]
  · show (config.erase className)[n]? = _
    simp only [Std.TreeMap.getElem?_erase, Std.LawfulEqOrd.compare_eq_iff_eq]
  · exact Std.TreeMap.getElem?_emptyc

theorem readDefaults_eq_run (data : Option (List (Text × Text))) :
    readDefaults toLowerCase data = run step ∅ (defaultEntries toLowerCase data) := by
  rcases data with _ | pairs
  · rfl
  unfold readDefaults defaultEntries
  generalize (∅ : Config) = config
  induction pairs generalizing config with
  | nil => rfl
  | cons p pairs ih =>
    simp only [Option.getD_some, List.foldl_cons, List.filterMap_cons] at ih ⊢
    rcases levelsMapping (toLowerCase p.2) with _ | level
    · exact ih config
    · exact ih (config.insert p.1 level)

/-- **The table is what the history says.** -/
theorem getElem?_run (h : List Event) (n : Text) : (run step ∅ h)[n]? = lastAdded h n := by
  induction h using List.reverseRecOn with
  | nil => exact Std.TreeMap.getElem?_emptyc
  | append_singleton h e ih => rw [run_concat, getElem?_step, lastAdded_concat, ih]

end Machine

/-! ### The level of a class -/

/-- `p` is the first segments of the class name, one or more, joined by dots. -/
def IsFront (c p : Text) : Prop :=
  ∃ k, 1 ≤ k ∧ k ≤ (c.splitOn '.').length ∧ p = ['.'].intercalate ((c.splitOn '.').take k)

theorem level_split {config : Config} {c : Text} (hc : c.getLast? ≠ some '.') :
    level config (split '.' c).reverse = lookup (fun n => config[n]?) '.'
      (c.splitOn '.').reverse := by
  rw [split_eq_splitOn hc]
  rfl

/-- The level after a history: that of the longest name in front which has an entry. -/
theorem levelFor_run (h : List Event) {c : Text} (hc : c.getLast? ≠ some '.') :
    (∃ p l, IsFront c p ∧ lastAdded h p = some l ∧
        (∀ q, IsFront c q → lastAdded h q ≠ none → q.length ≤ p.length) ∧
        levelFor (run step ∅ h) c = l) ∨
      (∀ p, IsFront c p → lastAdded h p = none) ∧ levelFor (run step ∅ h) c = .trace := by
  unfold levelFor
  rw [level_split hc]
  simp only [getElem?_run, IsFront, ← front_iff_take]
  rcases lookup_splitOn '.' (lastAdded h) c with ⟨p, l, hp, hl, hlk, hmax⟩ | ⟨hlk, hnone⟩
  · refine .inl ⟨p, l, hp, hl, fun q hq hne => ?_, by rw [hlk]; rfl⟩
    by_contra hlt
    exact hne (hmax q hq (by omega))
  · exact .inr ⟨hnone, by rw [hlk]; rfl⟩

/-- A call about `n` alone changes the level of a class only if the class is `n` or below it and has
no closer entry. -/
theorem levelFor_step (h : List Event) {c n : Text} (hc : c.getLast? ≠ some '.') {e : Event}
    (he : ∀ q, q ≠ n → lastAdded (h ++ [e]) q = lastAdded h q)
    (hlevel : levelFor (run step ∅ (h ++ [e])) c ≠ levelFor (run step ∅ h) c) :
    (c = n ∨ n ++ ['.'] <+: c) ∧ ∀ q, IsFront c q → n.length < q.length → lastAdded h q = none := by
  unfold levelFor at hlevel
  rw [level_split hc, level_split hc] at hlevel
  simp only [getElem?_run] at hlevel
  have hkeep : ¬ (¬ Front '.' c n ∨ ∃ q, Front '.' c q ∧ n.length < q.length ∧
    lastAdded h q ≠ none) := by
    intro hn
    have heq := lookup_unaffected (fun q hq => (he q hq).symm) hn
    exact hlevel (by rw [heq])
  obtain ⟨hfront, hcloser⟩ := not_or.mp hkeep
  refine ⟨(not_not.mp hfront).imp_left Eq.symm, fun q hq hlt => ?_⟩
  by_contra hne
  exact hcloser ⟨q, front_iff_take.mpr hq, hlt, hne⟩

/-- **The level of a class is that of the longest name in front of it.** After the defaults and any
calls, `levelFor` of a name that does not end in a dot is the level last added for the longest name
made of its first segments, and `Trace` if none of these has an entry. So a call that adds or
removes one entry changes the level only of that class and of those below it which have no closer
entry. -/
theorem levelFor_eq (toLowerCase : Text → Text) (data : Option (List (Text × Text)))
    (es : List Event) (c : Text) (hc : c.getLast? ≠ some '.') :
    ((∃ p l, IsFront c p ∧ lastAdded (defaultEntries toLowerCase data ++ es) p = some l ∧
        (∀ q, IsFront c q → lastAdded (defaultEntries toLowerCase data ++ es) q ≠ none →
          q.length ≤ p.length) ∧
        levelFor (run step (readDefaults toLowerCase data) es) c = l) ∨
      (∀ p, IsFront c p → lastAdded (defaultEntries toLowerCase data ++ es) p = none) ∧
        levelFor (run step (readDefaults toLowerCase data) es) c = .trace) ∧
    ∀ (n : Text) (e : Event), (e = .removeEntry n ∨ ∃ l, e = .addEntry n l) →
      levelFor (run step (readDefaults toLowerCase data) (es ++ [e])) c ≠
        levelFor (run step (readDefaults toLowerCase data) es) c →
      (c = n ∨ n ++ ['.'] <+: c) ∧
        ∀ q, IsFront c q → n.length < q.length →
          lastAdded (defaultEntries toLowerCase data ++ es) q = none := by
  rw [readDefaults_eq_run, ← run_append]
  refine ⟨levelFor_run _ hc, fun n e he hlevel => ?_⟩
  rw [← run_append, ← List.append_assoc] at hlevel
  refine levelFor_step _ hc (fun q hq => ?_) hlevel
  rw [lastAdded_concat]
  rcases he with rfl | ⟨l, rfl⟩
  · exact if_neg hq.symm
  · exact if_neg hq.symm

/-- The properties file of the tests. -/
def testProperties : Option (List (Text × Text)) :=
  some [("com.verknowsys.served".toList, "warn".toList)]

def lower (s : Text) : Text := s.map Char.toLower

def aaa : Text := "com.verknowsys.served.aaa".toList

def aaaSub : Text := "com.verknowsys.served.aaa.sub".toList

/-- A class below one that gets an entry and loses it again. -/
theorem levelFor_eq_aaa :
    aaaSub.getLast? ≠ some '.' ∧
      levelFor (run step (readDefaults lower testProperties) [.addEntry aaa .debug])
        aaaSub = .debug ∧
      levelFor (run step (readDefaults lower testProperties) [.addEntry aaa .debug,
        .removeEntry aaa]) aaaSub =
        .warn ∧
      (aaaSub = aaa ∨ aaa ++ ['.'] <+: aaaSub) :=
  have hdot : aaaSub.getLast? ≠ some '.' := by decide
  have hdebug :
      levelFor (run step (readDefaults lower testProperties) [.addEntry aaa .debug]) aaaSub =
        .debug := by decide
  have hwarn :
      levelFor (run step (readDefaults lower testProperties) [.addEntry aaa .debug,
        .removeEntry aaa]) aaaSub =
        .warn := by decide
  have hchange := (levelFor_eq lower testProperties [.addEntry aaa .debug] aaaSub hdot).2 aaa
    (.removeEntry aaa) (.inl rfl) (by
      rw [List.singleton_append, hdebug, hwarn]
      decide)
  ⟨hdot, hdebug, hwarn, hchange.1⟩

end ServeD.Utils.Logging
