import ServeD.Lib.Integers
import ServeD.Lib.Maps
import ServeD.Lib.Runs

/-! # Properties files

`SvdProperties`: the entries of a file are loaded when they are first asked for, and every operation
that changes them writes the whole file. A file is the list of its logical lines: an entry, or a
line with a malformed escape, which makes `java.util.Properties` raise; comments and blank lines are
left out.

`load` makes `None` of an exception, and then nothing is stored in memory, but the file is still
written: every operation leaves an empty file (`step_broken`). So the entries are kept and the
written values can be read back exactly when the file can be loaded, nothing is done, or nothing was
there and nothing is expected to be there (`keeps_iff`). -/

namespace ServeD.Utils.Properties

open ServeD.Lib.Integers ServeD.Lib.Maps ServeD.Lib.Runs

/-! ### Files -/

/-- A logical line. -/
inductive Line where
  | entry (key value : String)
  | malformed
  deriving DecidableEq, Repr

def Line.pair : Line → Option (String × String)
  | .entry key value => some (key, value)
  | .malformed => none

/-- The value that a file has for a key, in the lines that can be read. -/
def entry (file : List Line) (key : String) : Option String :=
  lastValue (file.filterMap Line.pair) key

/-- Every line can be read. -/
def Loads (file : List Line) : Prop := ∀ line ∈ file, line ≠ .malformed

instance (file : List Line) : Decidable (Loads file) := List.decidableBAll _ _

abbrev Data := Std.TreeMap String String

/-- `JProperties.store`. -/
def jstore (data : Data) : List Line := data.toList.map fun p => .entry p.1 p.2

/-! ### Values -/

/-- `PropertyConverter`. -/
structure PropertyConverter (T : Type) where
  apply : String → Option T
  toString : T → String

/-- A value with its type. -/
inductive Value (D : Type) where
  | string (s : String)
  | int (i : BitVec 32)
  | double (d : D)
  | boolean (b : Bool)

inductive Kind where
  | string
  | int
  | double
  | boolean
  deriving DecidableEq, Repr

def Value.kind {D : Type} : Value D → Kind
  | .string _ => .string
  | .int _ => .int
  | .double _ => .double
  | .boolean _ => .boolean

/-- `s.toBoolean`. -/
def toBoolean (s : String) : Option Bool :=
  if s.toLower = "true" then some true
  else if s.toLower = "false" then some false
  else none

variable {D : Type} (DoublePropertyConverter : PropertyConverter D)

/-- The converter of a type, applied to a string. -/
def convert : Kind → String → Option (Value D)
  | .string, s => some (.string s)
  | .int, s => (parseInt s).map fun i => .int (BitVec.ofInt 32 i)
  | .double, s => (DoublePropertyConverter.apply s).map .double
  | .boolean, s => (toBoolean s).map .boolean

/-- `conv.toString(value)`, and `value.toString`. -/
def Value.text : Value D → String
  | .string s => s
  | .int i => toString i.toInt
  | .double d => DoublePropertyConverter.toString d
  | .boolean b => toString b

/-! ### The class -/

/-- An instance of `SvdProperties` on its file. `data` is a lazy value, which `load` makes `None` if
the file cannot be loaded. -/
structure SvdProperties where
  file : List Line
  lazyData : Option (Option Data)

/-- `new SvdProperties(filename)`. -/
def SvdProperties.new (file : List Line) : SvdProperties := ⟨file, none⟩

/-- `load`. -/
def SvdProperties.load (p : SvdProperties) : Option Data :=
  if Loads p.file then some (insertAll ∅ (p.file.filterMap Line.pair)) else none

/-- `data`. -/
def SvdProperties.data (p : SvdProperties) : Option Data := p.lazyData.getD p.load

/-- `save`, with the `data` to be saved: the file is truncated even if there is none. -/
def SvdProperties.save (data : Option Data) : SvdProperties := ⟨jstore (data.getD ∅), some data⟩

/-- `SvdProperty.value`, converted. -/
def SvdProperties.read (p : SvdProperties) (key : String) (kind : Kind) : Option (Value D) :=
  (p.data.bind fun data => data[key]?).bind (convert DoublePropertyConverter kind)

/-- The operations: `props(k) = v`, `props.remove(k)` and `props(k) or default`. -/
inductive Op (D : Type) where
  | update (key : String) (value : Value D)
  | remove (key : String)
  | or (key : String) (default : Value D)

def Op.key : Op D → String
  | .update key _ => key
  | .remove key => key
  | .or key _ => key

/-- What is to be the value of the key: none after a removal. -/
def Op.value : Op D → Option (Value D)
  | .update _ value => some value
  | .remove _ => none
  | .or _ default => some default

/-- `update`. -/
def SvdProperties.update (p : SvdProperties) (key : String) (value : Value D) : SvdProperties :=
  .save (p.data.map fun data => data.insert key (value.text DoublePropertyConverter))

/-- `remove`. -/
def SvdProperties.remove (p : SvdProperties) (key : String) : SvdProperties :=
  .save (p.data.map fun data => data.erase key)

/-- `props(key) or default`, with the value it returns. -/
def SvdProperties.or (p : SvdProperties) (key : String) (default : Value D) :
    Value D × SvdProperties :=
  match p.read DoublePropertyConverter key default.kind with
  | some value => (value, ⟨p.file, some p.data⟩)
  | none => (default, p.update DoublePropertyConverter key default)

def SvdProperties.step (p : SvdProperties) : Op D → SvdProperties
  | .update key value => p.update DoublePropertyConverter key value
  | .remove key => p.remove key
  | .or key default => (p.or DoublePropertyConverter key default).2

/-! ### What it should do -/

/-- What an operation writes at its key: a value, no value (a removal), or nothing. -/
def Op.writes (p : SvdProperties) : Op D → Option (Option (Value D))
  | .or key default =>
    if (p.read DoublePropertyConverter key default.kind).isSome then none else some (some default)
  | op => some op.value

/-- The value that was last written at a key and not removed; `w` is the one before. -/
def lastWritten (key : String) : SvdProperties → List (Op D) → Option (Value D) → Option (Value D)
  | _, [], w => w
  | p, op :: ops, w => lastWritten key (p.step DoublePropertyConverter op) ops
      (if op.key = key then (op.writes DoublePropertyConverter p).getD w else w)

/-- The instance after the operations. -/
def after (file : List Line) (ops : List (Op D)) : SvdProperties :=
  run (SvdProperties.step DoublePropertyConverter) (.new file) ops

/-- Entries that no operation is about stay in the file, and a fresh instance reads for every key
the value that was last written. -/
structure Keeps (file : List Line) (ops : List (Op D)) : Prop where
  untouched : ∀ key value, (∀ op ∈ ops, op.key ≠ key) → entry file key = some value →
    entry (after DoublePropertyConverter file ops).file key = some value
  written : ∀ key value, lastWritten DoublePropertyConverter key (.new file) ops none = some value →
    value.kind ≠ .double → ∀ default : Value D, default.kind = value.kind →
      ((SvdProperties.new (after DoublePropertyConverter file ops).file).or
        DoublePropertyConverter key
        default).1 = value

variable {DoublePropertyConverter}

/-! ### Values are read back -/

theorem toBoolean_toString (b : Bool) : toBoolean (toString b) = some b := by
  cases b with
  | true => decide +kernel
  | false => decide +kernel

/-- A value that is not a double is read back from its text. -/
theorem convert_text {value : Value D} (h : value.kind ≠ .double) :
    convert DoublePropertyConverter value.kind (value.text DoublePropertyConverter) =
      some value := by
  cases value with
  | string s => rfl
  | int i =>
    have hlo : -2 ^ 31 ≤ i.toInt := BitVec.le_toInt i
    have hhi : i.toInt < 2 ^ 31 := BitVec.toInt_lt
    have hparse : parseInt (toString i.toInt) = some i.toInt := parseInt_toString hlo hhi
    simp only [convert, Value.kind, Value.text, hparse, Option.map_some, BitVec.ofInt_toInt]
  | double d => exact absurd rfl h
  | boolean b =>
    simp only [convert, Value.kind, Value.text, toBoolean_toString, Option.map_some]

/-- There is another value of the same type. -/
theorem exists_other {value : Value D} (h : value.kind ≠ .double) :
    ∃ other : Value D, other.kind = value.kind ∧ other ≠ value := by
  cases value with
  | string s =>
    refine ⟨.string (s ++ "x"), rfl, fun he => ?_⟩
    have hl := congrArg String.length (Value.string.inj he)
    simp at hl
  | int i =>
    refine ⟨.int (i + 1), rfl, fun he => ?_⟩
    have hi := Value.int.inj he
    bv_omega
  | double d => exact absurd rfl h
  | boolean b => exact ⟨.boolean (!b), rfl, fun he => by cases b <;> cases he⟩

/-! ### A file that can be loaded -/

theorem loads_jstore (data : Data) : Loads (jstore data) := by
  intro line hl
  obtain ⟨p, -, rfl⟩ := List.mem_map.mp hl
  exact Line.noConfusion

theorem entry_jstore (data : Data) (key : String) : entry (jstore data) key = data[key]? := by
  have hpairs : (jstore data).filterMap Line.pair = data.toList := by
    unfold jstore
    rw [List.filterMap_map]
    exact List.filterMap_some
  rw [entry, hpairs, lastValue_toList]

/-- The instance works on the data `m`, and the file has the same entries. -/
structure Ready (p : SvdProperties) (m : Data) : Prop where
  data : p.data = some m
  loads : Loads p.file
  entries : ∀ key, entry p.file key = m[key]?

theorem Ready.new {file : List Line} (h : Loads file) :
    Ready (.new file) (insertAll ∅ (file.filterMap Line.pair)) := by
  refine ⟨if_pos h, h, fun key => ?_⟩
  rw [getElem?_insertAll_empty]
  rfl

theorem Ready.save (m : Data) : Ready (.save (some m)) m := ⟨rfl, loads_jstore m, entry_jstore m⟩

section Ready

variable {p : SvdProperties} {m : Data} {key : String}

theorem Ready.read (h : Ready p m) (kind : Kind) :
    p.read DoublePropertyConverter key kind = (m[key]?).bind
      (convert DoublePropertyConverter kind) := by
  rw [SvdProperties.read, h.data]
  rfl

theorem Ready.update (h : Ready p m) (value : Value D) :
    Ready (p.update DoublePropertyConverter key value)
      (m.insert key (value.text DoublePropertyConverter)) := by
  rw [SvdProperties.update, h.data]
  exact Ready.save _

theorem Ready.remove (h : Ready p m) : Ready (p.remove key) (m.erase key) := by
  rw [SvdProperties.remove, h.data]
  exact Ready.save _

/-- **One operation**: other keys keep their values, and what it writes is there. -/
theorem Ready.step (h : Ready p m) (op : Op D) :
    ∃ m', Ready (p.step DoublePropertyConverter op) m' ∧ (∀ k, k ≠ op.key → m'[k]? = m[k]?) ∧
      (∀ value, op.writes DoublePropertyConverter p = some (some value) →
        m'[op.key]? = some (value.text DoublePropertyConverter)) ∧
      (op.writes DoublePropertyConverter p = none → m'[op.key]? = m[op.key]?) := by
  have hinsert : ∀ (key : String) (value : Value D),
      (∀ k : String, k ≠ key → (m.insert key (value.text DoublePropertyConverter))[k]? = m[k]?) ∧
      (m.insert key (value.text DoublePropertyConverter))[key]? =
        some (value.text DoublePropertyConverter) := by
    intro key value
    refine ⟨fun k hk => ?_, Std.TreeMap.getElem?_insert_self⟩
    rw [Std.TreeMap.getElem?_insert, if_neg]
    simpa using Ne.symm hk
  cases op with
  | update key value =>
    refine ⟨_, h.update value, (hinsert key value).1, fun v hv => ?_, fun hn => by cases hn⟩
    obtain rfl := Option.some.inj (Option.some.inj hv)
    exact (hinsert key value).2
  | remove key =>
    refine ⟨_, h.remove, fun k hk => ?_, (fun v hv => by cases hv), fun hn => by cases hn⟩
    have hk' : key ≠ k := Ne.symm hk
    rw [Std.TreeMap.getElem?_erase, if_neg]
    simpa using hk'
  | or key default =>
    simp only [Op.writes, Op.key, SvdProperties.step, SvdProperties.or]
    rcases hr : p.read DoublePropertyConverter key default.kind with _ | v
    · refine ⟨_, h.update default, (hinsert key default).1, fun v hv => ?_, fun hn => by simp at hn⟩
      obtain rfl : default = v := by simpa using hv
      exact (hinsert key default).2
    · exact ⟨m, ⟨h.data, h.loads, h.entries⟩, fun _ _ => rfl, fun v hv => by simp at hv, fun _ =>
        rfl⟩

end Ready

/-- **All operations**: untouched keys keep their values, and the last written value is there. -/
theorem Ready.run (DoublePropertyConverter : PropertyConverter D) {p : SvdProperties} {m : Data}
    (h : Ready p m) (ops : List (Op D)) :
    ∃ m', Ready (run (SvdProperties.step DoublePropertyConverter) p ops) m' ∧
      (∀ k, (∀ op ∈ ops, op.key ≠ k) → m'[k]? = m[k]?) ∧
      ∀ k w, (∀ v, w = some v → m[k]? = some (v.text DoublePropertyConverter)) →
        ∀ v, lastWritten DoublePropertyConverter k p ops w = some v →
          m'[k]? = some (v.text DoublePropertyConverter) := by
  induction ops generalizing p m with
  | nil => exact ⟨m, h, fun _ _ => rfl, fun k w hw v hv => hw v hv⟩
  | cons op ops ih =>
    obtain ⟨m₁, h₁, hother, hwrites, hnone⟩ := h.step op
    obtain ⟨m₂, h₂, huntouched, hlast⟩ := ih h₁
    refine ⟨m₂, h₂, fun k hk => ?_, fun k w hw v hv => hlast k _ ?_ v hv⟩
    · rw [huntouched k fun op' hop => hk op' (List.mem_cons_of_mem op hop)]
      exact hother k (Ne.symm (hk op List.mem_cons_self))
    · -- the value that is the last one after `op` is in the file
      intro u hu
      split_ifs at hu with hk
      · subst hk
        rcases hw' : op.writes DoublePropertyConverter p with _ | written
        · rw [hw', Option.getD_none] at hu
          rw [hnone hw', hw u hu]
        · rw [hw', Option.getD_some] at hu
          subst hu
          exact hwrites u hw'
      · rw [hother k (Ne.symm hk), hw u hu]

/-- A value of the file is returned, whatever the default. -/
theorem Ready.or {p : SvdProperties} {m : Data} (h : Ready p m) {key : String} {value : Value D}
    (hm : m[key]? = some (value.text DoublePropertyConverter)) (hv : value.kind ≠ .double)
    {default : Value D} (hd : default.kind = value.kind) :
    (p.or DoublePropertyConverter key default).1 = value := by
  have hread : p.read DoublePropertyConverter key default.kind = some value := by
    rw [h.read, hm, hd]
    exact convert_text hv
  simp only [SvdProperties.or, hread]

theorem keeps_of_loads {file : List Line} (h : Loads file) (ops : List (Op D)) :
    Keeps DoublePropertyConverter file ops := by
  obtain ⟨m, hm, huntouched, hlast⟩ := (Ready.new h).run DoublePropertyConverter ops
  have hmfile := Ready.new hm.loads
  refine ⟨fun key value hkey he => ?_, fun key value hw hv default hd => hmfile.or ?_ hv hd⟩
  · rw [after, hm.entries, huntouched key hkey, ← (Ready.new h).entries]
    exact he
  · rw [← hmfile.entries, ← hlast key none (fun v hn => by cases hn) value hw]
    exact hm.entries key

/-! ### A file that cannot be loaded -/

/-- **Every operation leaves an empty file**, and no data in memory. -/
theorem step_broken {p : SvdProperties} (h : p.data = none) (op : Op D) :
    p.step DoublePropertyConverter op = ⟨[], some none⟩ := by
  have hnil : (∅ : Data).toList = [] := List.isEmpty_iff.mp Std.TreeMap.isEmpty_toList
  have hsave : SvdProperties.save none = ⟨[], some none⟩ := by
    rw [SvdProperties.save, Option.getD_none, jstore, hnil, List.map_nil]
  cases op with
  | update key value =>
    simp only [SvdProperties.step, SvdProperties.update, h, Option.map_none, hsave]
  | remove key =>
    simp only [SvdProperties.step, SvdProperties.remove, h, Option.map_none, hsave]
  | or key default =>
    simp only [SvdProperties.step, SvdProperties.or, SvdProperties.read, SvdProperties.update, h,
      Option.bind_none, Option.map_none, hsave]

theorem run_broken {p : SvdProperties} (h : p.data = none) {ops : List (Op D)} (ho : ops ≠ []) :
    (run (SvdProperties.step DoublePropertyConverter) p ops).file = [] := by
  induction ops generalizing p with
  | nil => exact absurd rfl ho
  | cons op ops ih =>
    rw [run_cons, step_broken h]
    rcases ops with _ | ⟨op', ops⟩
    · rfl
    · exact ih rfl (List.cons_ne_nil op' ops)

/-- Every operation means to write, since nothing can be read. -/
theorem lastWritten_broken {p : SvdProperties} (h : p.data = none) (ops : List (Op D))
    (key : String) (w : Option (Value D)) :
    lastWritten DoublePropertyConverter key p ops w =
      (lastValue (ops.map fun op => (op.key, op.value)) key).getD w := by
  induction ops generalizing p w with
  | nil => rfl
  | cons op ops ih =>
    have hwrites : op.writes DoublePropertyConverter p = some op.value := by
      cases op with
      | update key value => rfl
      | remove key => rfl
      | or key default => simp [Op.writes, Op.value, SvdProperties.read, h]
    rw [lastWritten, step_broken h, ih rfl, List.map_cons, lastValue_cons, hwrites]
    generalize lastValue (ops.map fun op => (op.key, op.value)) key = last
    rcases last with _ | v
    · split_ifs <;> rfl
    · rfl

theorem or_empty (key : String) (default : Value D) :
    ((SvdProperties.new []).or DoublePropertyConverter key default).1 = default := by
  have hread : (SvdProperties.new []).read DoublePropertyConverter key default.kind = none := by
    rw [(Ready.new (fun _ h => absurd h List.not_mem_nil)).read]
    rfl
  simp only [SvdProperties.or, hread]

/-- The file was not loaded: every entry was to be changed,
and no value that can be checked was to be there. -/
theorem keeps_broken_iff {file : List Line} (h : ¬ Loads file) {ops : List (Op D)} (ho : ops ≠ []) :
    Keeps DoublePropertyConverter file ops ↔
      (∀ key value, entry file key = some value → ∃ op ∈ ops, op.key = key) ∧
        ∀ key value, lastValue (ops.map fun op => (op.key, op.value)) key = some (some value) →
          value.kind = .double := by
  have hdata : (SvdProperties.new file).data = none := if_neg h
  have hfile : (after DoublePropertyConverter file ops).file = [] := run_broken hdata ho
  have hlast : ∀ key value,
      lastWritten DoublePropertyConverter key (.new file) ops none = some value ↔
        lastValue (ops.map fun op => (op.key, op.value)) key = some (some value) := by
    intro key value
    rw [lastWritten_broken hdata]
    exact Option.getD_eq_iff.trans (by simp)
  constructor
  · refine fun hkeeps => ⟨fun key value he => ?_, fun key value hl => ?_⟩
    · by_contra hno
      push Not at hno
      have hempty := hkeeps.untouched key value hno he
      rw [hfile] at hempty
      cases hempty
    · by_contra hv
      obtain ⟨other, hkind, hne⟩ := exists_other hv
      have hread := hkeeps.written key value ((hlast key value).mpr hl) hv other hkind
      rw [hfile, or_empty] at hread
      exact hne hread
  · rintro ⟨hall, hdouble⟩
    refine ⟨fun key value hkey he => ?_, fun key value hw hv => ?_⟩
    · obtain ⟨op, hop, hk⟩ := hall key value he
      exact absurd hk (hkey op hop)
    · exact absurd (hdouble key value ((hlast key value).mp hw)) hv

/-- **Exactly when the entries are kept and the written values can be read back**. -/
theorem keeps_iff (file : List Line) (ops : List (Op D)) :
    Keeps DoublePropertyConverter file ops ↔
      Loads file ∨ ops = [] ∨
        ((∀ key value, entry file key = some value → ∃ op ∈ ops, op.key = key) ∧
          ∀ key value, lastValue (ops.map fun op => (op.key, op.value)) key = some (some value) →
            value.kind = .double) := by
  by_cases hloads : Loads file
  · exact iff_of_true (keeps_of_loads hloads ops) (.inl hloads)
  by_cases ho : ops = []
  · subst ho
    exact iff_of_true ⟨fun _ _ _ he => he, fun _ _ hw => by cases hw⟩ (.inr (.inl rfl))
  · rw [keeps_broken_iff hloads ho, or_iff_right hloads, or_iff_right ho]

/-- Setting `b` loses `a` in a file with a malformed line. -/
theorem not_keeps_malformed :
    ¬ Keeps (⟨fun _ => none, fun _ => ""⟩ : PropertyConverter Unit) [.entry "a" "1", .malformed]
      [.update "b" (.string "x")] := by
  intro h
  have hkeeps := h.untouched "a" "1" (by decide) (by decide)
  revert hkeeps
  decide

end ServeD.Utils.Properties
