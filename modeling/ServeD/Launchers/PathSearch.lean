import ServeD.Lib.CStrings

/-! # Searching the path

`findpathof`, with which the runner looks for an executable, in a buffer of `PATH_MAX + 1` bytes.
Three lengths are computed for the copies: the length of a component (for all but the last one,
whatever it is), `PATH_MAX` (for the last one) and what `PATH_MAX` leaves after the component
without the slash.

* `search_spec`: the loop over the components, from any contents of the buffer;
* `finds_iff`: the search is right and in bounds exactly if every component it visits fits. -/

namespace ServeD.Launchers.PathSearch

open ServeD.Lib.CStrings

def slash : UInt8 := 47

def colon : UInt8 := 58

/-- The name of an executable. -/
structure Name extends CString where
  noSlash : slash ∉ bytes

structure Stat where
  st_mode : ℕ
  st_uid : ℕ
  st_gid : ℕ
  deriving DecidableEq, Repr

/-- What the system says. -/
structure System (PATH_MAX : ℕ) where
  stat : List UInt8 → Option Stat
  realpath : List UInt8 → Option (List UInt8)
  geteuid : ℕ
  getegid : ℕ
  /-- A path with its NUL has at most `PATH_MAX` bytes (`ENAMETOOLONG`). -/
  tooLong : ∀ path, PATH_MAX ≤ path.length → stat path = none

/-! ### The source -/

section Source

variable {PATH_MAX : ℕ} (system : System PATH_MAX) (exe : List UInt8)

def S_ISREG (mode : ℕ) : Bool := mode &&& 0o170000 == 0o100000

def checkifexecutable (filename : List UInt8) : ℕ :=
  match system.stat filename with
  | none => 0
  | some statinfo =>
    if !S_ISREG statinfo.st_mode then 0
    else if statinfo.st_uid = system.geteuid then statinfo.st_mode &&& 0o100
    else if statinfo.st_gid = system.getegid then statinfo.st_mode &&& 0o010
    else statinfo.st_mode &&& 0o001

/-- What a search returns, the buffer it leaves, and the buffer after each of its steps. -/
structure Outcome (PATH_MAX : ℕ) where
  found : ℕ
  pth : Buffer (PATH_MAX + 1)
  steps : List (Buffer (PATH_MAX + 1))

/-- The slash, if there is none, and the name behind a component of length `len`. -/
def addName (pth : Buffer (PATH_MAX + 1)) (len : ℕ) :
    Option (Buffer (PATH_MAX + 1) × Buffer (PATH_MAX + 1)) := do
  let c ← pth.read ((len : ℤ) - 1)
  let slashed ← if c ≠ slash then pth.strncat [slash] 1 else some pth
  let named ← slashed.strncat exe (PATH_MAX - len)
  some (slashed, named)

/-- The loop over the components. -/
def search : List (List UInt8) → Buffer (PATH_MAX + 1) → Option (Outcome PATH_MAX)
  | [], pth => some ⟨0, pth, []⟩
  | [beg], pth => do
    let copied ← pth.strncpy beg PATH_MAX
    let len ← copied.strlen
    let (slashed, named) ← addName exe copied len
    some ⟨checkifexecutable system named.text, named, [copied, slashed, named]⟩
  | beg :: next :: rest, pth => do
    let copied ← pth.copy beg
    let (slashed, named) ← addName exe copied beg.length
    let found := checkifexecutable system named.text
    if found ≠ 0 then some ⟨found, named, [copied, slashed, named]⟩
    else
      let outcome ← search (next :: rest) named
      some { outcome with steps := [copied, slashed, named] ++ outcome.steps }

/-- The components of `PATH`. -/
def components : Option CString → List (List UInt8)
  | none => []
  | some searchpath => if searchpath.bytes = [] then [] else searchpath.bytes.splitOn colon

def findpathof (PATH : Option CString) (pth : Buffer (PATH_MAX + 1)) : Option (Outcome PATH_MAX) :=
  if slash ∈ exe then
    match system.realpath exe with
    | none => some ⟨0, pth, []⟩
    | some path => (pth.copy path).map fun resolved =>
      ⟨checkifexecutable system path, resolved, [resolved]⟩
  else search system exe (components PATH) pth

end Source

/-! ### What is looked for -/

/-- The component ends in a slash. -/
def Slashed (component : List UInt8) : Prop := component.getLast? = some slash

instance : DecidablePred Slashed := fun component =>
    inferInstanceAs (Decidable (component.getLast? = some slash))

/-- The component with a slash behind it. -/
def withSlash (component : List UInt8) : List UInt8 :=
  component ++ if Slashed component then [] else [slash]

/-- The path of a file in the directory of a component;
the empty component is the working directory. -/
def pathIn (component exe : List UInt8) : List UInt8 :=
  (if component = [] then [46, slash] else withSlash component) ++ exe

section Spec

variable {PATH_MAX : ℕ} (system : System PATH_MAX) (exe : List UInt8)

/-- There is an executable regular file of that name in the directory. -/
def Contains (component : List UInt8) : Prop := checkifexecutable system (pathIn component exe) ≠ 0

instance : DecidablePred (Contains system exe) := fun component =>
  inferInstanceAs (Decidable (checkifexecutable system (pathIn component exe) ≠ 0))

/-- The outcome is the first path that is looked for. -/
structure Right (PATH : List (List UInt8)) (outcome : Outcome PATH_MAX) : Prop where
  found : outcome.found ≠ 0 ↔ ∃ component ∈ PATH, Contains system exe component
  first : ∀ component, PATH.find? (fun component => Contains system exe component) =
    some component →
    outcome.pth.Holds (pathIn component exe)
  terminated : ∀ pth ∈ outcome.steps, pth.Terminated

/-- **The search is right and in bounds**, whatever the buffer contains. -/
def Finds (PATH : Option CString) : Prop :=
  ∀ pth, ∃ outcome, findpathof system exe PATH pth = some outcome ∧
    Right system exe (components PATH) outcome

/-- There is room for the component, its slash and the name; a component with a slash may leave too
little room for the name, which is cut then. -/
def Room (PATH_MAX : ℕ) (exe component : List UInt8) : Prop :=
  Slashed component ∧ component.length ≤ PATH_MAX ∨ component.length + 1 + exe.length ≤ PATH_MAX

/-- Every component that is visited fits. `full` says that a path of all the bytes of the buffer but
its last one has been written before, so that this is a NUL: there, a last component that is too
long is cut to a string. -/
def Fit (full : Prop) : List (List UInt8) → Prop
  | [] => True
  | [component] => component ≠ [] ∧
      (component.length < PATH_MAX ∧ Room PATH_MAX exe component ∨
        PATH_MAX ≤ component.length ∧ full ∧ Slashed (component.take PATH_MAX))
  | component :: next :: rest => component ≠ [] ∧ Room PATH_MAX exe component ∧
      (Contains system exe component ∨ Fit (full ∨ PATH_MAX ≤ (pathIn component exe).length)
        (next :: rest))

end Spec

/-! ### One component -/

section Component

variable {PATH_MAX : ℕ} {system : System PATH_MAX} {exe component s : List UInt8}
    {b copied : Buffer (PATH_MAX + 1)}

theorem withSlash_of_slashed (h : Slashed s) : withSlash s = s := by
  rw [withSlash, if_pos h, List.append_nil]

theorem withSlash_of_not_slashed (h : ¬ Slashed s) : withSlash s = s ++ [slash] := by
  rw [withSlash, if_neg h]

theorem room_of_slashed (h : Slashed s) : Room PATH_MAX exe s ↔ s.length ≤ PATH_MAX := by
  unfold Room
  simp only [h, true_and]
  omega

theorem room_of_not_slashed (h : ¬ Slashed s) : Room PATH_MAX exe s ↔
    s.length + 1 + exe.length ≤ PATH_MAX := by
  unfold Room
  simp only [h, false_and, false_or]

/-- What is written for a component. -/
def written (PATH_MAX : ℕ) (exe component : List UInt8) : List UInt8 :=
  withSlash component ++ exe.take (PATH_MAX - component.length)

/-- **The slash and the name**, if there is room. -/
theorem addName_of_room (h : Filled b s copied) (hs : s ≠ []) (hexe : 0 ∉ exe)
    (hroom : Room PATH_MAX exe s) :
    ∃ slashed named, addName exe copied s.length = some (slashed, named) ∧ slashed.Terminated ∧
      Filled b (written PATH_MAX exe s) named := by
  have hlt := h.holds.length_lt
  have hlast : s.getLast? = some (s.getLast hs) := List.getLast?_eq_some_getLast hs
  by_cases hslashed : Slashed s
  · have hc : s.getLast hs = slash := Option.some.inj (hlast.symm.trans hslashed)
    obtain ⟨named, hnamed, hfilled⟩ := h.append (k := PATH_MAX - s.length) hexe
      (by rw [List.length_take]; omega)
    refine ⟨copied, named, ?_, h.holds.terminated, ?_⟩
    · rw [addName, Buffer.read_last h.holds hs, hc]
      simp [hnamed]
    · rwa [written, withSlash_of_slashed hslashed]
  · have hfits := (room_of_not_slashed hslashed).mp hroom
    have hc : s.getLast hs ≠ slash := fun hc => hslashed (hlast.trans (congrArg some hc))
    obtain ⟨slashed, hcat, hfilled⟩ := h.append (t := [slash]) (k := 1) (by decide) (by
      rw [List.take_of_length_le (by simp), List.length_singleton]
      omega)
    rw [List.take_of_length_le (by simp)] at hfilled
    obtain ⟨named, hnamed, hfilled'⟩ := hfilled.append (k := PATH_MAX - s.length) hexe (by
      rw [List.length_append, List.length_singleton, List.length_take]
      omega)
    refine ⟨slashed, named, ?_, hfilled.holds.terminated, ?_⟩
    · rw [addName, Buffer.read_last h.holds hs]
      simp [hc, hcat, hnamed]
    · rwa [written, withSlash_of_not_slashed hslashed]

theorem addName_eq_none (h : copied.Holds s) (hs : s ≠ []) (hroom : ¬ Room PATH_MAX exe s) :
    addName exe copied s.length = none := by
  have hlt := h.length_lt
  have hlast : s.getLast? = some (s.getLast hs) := List.getLast?_eq_some_getLast hs
  have hslashed : ¬ Slashed s := fun hslashed => hroom ((room_of_slashed hslashed).mpr (by omega))
  have hfits := mt (room_of_not_slashed hslashed).mpr hroom
  have hc : s.getLast hs ≠ slash := fun hc => hslashed (hlast.trans (congrArg some hc))
  rw [addName, Buffer.read_last h hs]
  rcases Nat.lt_or_ge (s.length + 1) (PATH_MAX + 1) with hone | hone
  · obtain ⟨slashed, hcat, hfilled⟩ := (Filled.self h).append (t := [slash]) (k := 1)
        (by decide) (by
      rw [List.take_of_length_le (by simp), List.length_singleton]
      exact hone)
    rw [List.take_of_length_le (by simp)] at hfilled
    have hnone : slashed.strncat exe (PATH_MAX - s.length) = none :=
      append_eq_none hfilled.holds (by
      rw [List.length_append, List.length_singleton, List.length_take]
      omega)
    simp [hc, hcat, hnone]
  · have hnone : copied.strncat [slash] 1 = none := append_eq_none h (by
      rw [List.take_of_length_le (by simp), List.length_singleton]
      exact hone)
    simp [hc, hnone]

theorem addName_empty (copied : Buffer (PATH_MAX + 1)) : addName exe copied 0 = none := by
  have hread : copied.read ((0 : ℕ) - 1 : ℤ) = none := copied.read_neg
  rw [addName, hread]
  rfl

/-- A path that is cut is as long as one that the system refuses. -/
theorem checkifexecutable_written (system : System PATH_MAX) (hs : s ≠ [])
    (hroom : Room PATH_MAX exe s) :
    checkifexecutable system (written PATH_MAX exe s) = checkifexecutable system (pathIn s exe) ∧
      (checkifexecutable system (written PATH_MAX exe s) ≠ 0 →
        written PATH_MAX exe s = pathIn s exe) := by
  by_cases hcut : exe.length ≤ PATH_MAX - s.length
  · have heq : written PATH_MAX exe s = pathIn s exe := by
        rw [written, pathIn, if_neg hs, List.take_of_length_le hcut]
    exact ⟨by rw [heq], fun _ => heq⟩
  · have hslashed : Slashed s := by
      by_contra hslashed
      have hfits := (room_of_not_slashed hslashed).mp hroom
      omega
    have hle := (room_of_slashed hslashed).mp hroom
    have hzero : ∀ path, PATH_MAX ≤ path.length → checkifexecutable system path = 0 := by
      intro path hlong
      rw [checkifexecutable, system.tooLong path hlong]
    have hwritten : checkifexecutable system (written PATH_MAX exe s) = 0 := by
      refine hzero _ ?_
      rw [written, withSlash_of_slashed hslashed, List.length_append, List.length_take]
      omega
    refine ⟨?_, fun hne => absurd hwritten hne⟩
    rw [hwritten, hzero _ ?_]
    rw [pathIn, if_neg hs, withSlash_of_slashed hslashed, List.length_append]
    omega

end Component

/-! ### The last byte of the buffer -/

section Last

variable {PATH_MAX : ℕ} {exe component s : List UInt8} {b b' : Buffer (PATH_MAX + 1)}

theorem last_filled (h : Filled b s b') :
    b'.bytes[PATH_MAX]? = some 0 ↔ b.bytes[PATH_MAX]? = some 0 ∨ PATH_MAX ≤ s.length := by
  have hlt := h.holds.length_lt
  rcases Nat.lt_or_ge s.length PATH_MAX with hshort | hlong
  · rw [h.kept _ hshort]
    exact (or_iff_left (by omega)).symm
  · have hlen : s.length = PATH_MAX := by omega
    exact iff_of_true (hlen ▸ h.holds.getElem?_length) (.inr hlong)

theorem length_written (hs : s ≠ []) (hroom : Room PATH_MAX exe s) :
    PATH_MAX ≤ (written PATH_MAX exe s).length ↔ PATH_MAX ≤ (pathIn s exe).length := by
  have hle : s.length ≤ PATH_MAX := by
    rcases hroom with ⟨-, hle⟩ | hfits
    · exact hle
    · omega
  have hslash : s.length ≤ (withSlash s).length := by
    rw [withSlash, List.length_append]
    omega
  rw [written, pathIn, if_neg hs, List.length_append, List.length_append, List.length_take]
  omega

/-- The last component, copied with padding. -/
theorem strncpy_short {copied : Buffer (PATH_MAX + 1)}
    (h : b.strncpy component PATH_MAX = some copied) (hnul : 0 ∉ component)
    (hlen : component.length < PATH_MAX) : copied.Holds component := by
  obtain ⟨b', hb', hbytes⟩ := b.exists_strncpy component (Nat.le_succ PATH_MAX)
  obtain rfl : copied = b' := Option.some.inj (h.symm.trans hb')
  obtain ⟨d, hd⟩ := Nat.exists_eq_add_of_lt hlen
  have hpad : PATH_MAX - component.length = d + 1 := by omega
  rw [List.take_of_length_le (by omega), hpad, List.replicate_succ, List.cons_append] at hbytes
  exact ⟨_, hbytes, hnul⟩

/-- The last component, cut to the buffer without its last byte. -/
theorem strncpy_long {copied : Buffer (PATH_MAX + 1)}
    (h : b.strncpy component PATH_MAX = some copied) (hnul : 0 ∉ component)
    (hlen : PATH_MAX ≤ component.length) :
    (b.bytes[PATH_MAX]? = some 0 → copied.Holds (component.take PATH_MAX)) ∧
      (b.bytes[PATH_MAX]? ≠ some 0 → ¬ copied.Terminated) := by
  obtain ⟨b', hb', hbytes⟩ := b.exists_strncpy component (Nat.le_succ PATH_MAX)
  obtain rfl : copied = b' := Option.some.inj (h.symm.trans hb')
  have hlast : PATH_MAX < b.bytes.length := by rw [b.length_eq]; omega
  have hdrop : b.bytes.drop PATH_MAX = [b.bytes[PATH_MAX]] := by
    rw [List.drop_eq_getElem_cons hlast, List.drop_eq_nil_of_le (by rw [b.length_eq])]
  have hpad : PATH_MAX - component.length = 0 := by omega
  have htake : (0 : UInt8) ∉ component.take PATH_MAX := fun hmem => hnul (List.mem_of_mem_take hmem)
  rw [hdrop, hpad, List.replicate_zero, List.nil_append] at hbytes
  rw [List.getElem?_eq_getElem hlast]
  constructor
  · intro hzero
    rw [Option.some.inj hzero] at hbytes
    exact ⟨[], hbytes, htake⟩
  · intro hne hmem
    rw [Buffer.Terminated, hbytes] at hmem
    rcases List.mem_append.mp hmem with hmem | hmem
    · exact htake hmem
    · exact hne (congrArg some (List.mem_singleton.mp hmem).symm)

end Last

/-! ### The loop -/

section Loop

variable {PATH_MAX : ℕ} {system : System PATH_MAX} {exe component : List UInt8}
    {rest : List (List UInt8)}
  {pth : Buffer (PATH_MAX + 1)} {steps : List (Buffer (PATH_MAX + 1))}

theorem right_nil (pth : Buffer (PATH_MAX + 1)) : Right system exe [] ⟨0, pth, []⟩ := by
  refine ⟨?_, ?_, ?_⟩
  · simp
  · intro component h
    cases h
  · intro b hb
    cases hb

/-- The path is found in the first component. -/
theorem right_of_contains (hcontains : Contains system exe component)
    (hpth : pth.Holds (pathIn component exe)) (hsteps : ∀ b ∈ steps, b.Terminated) {found : ℕ}
    (hfound : found ≠ 0) :
    Right system exe (component :: rest) ⟨found, pth, steps⟩ := by
  refine ⟨iff_of_true hfound ⟨component, List.mem_cons_self, hcontains⟩, ?_, hsteps⟩
  intro first hfirst
  rw [List.find?_cons_of_pos (by simpa using hcontains)] at hfirst
  cases hfirst
  exact hpth

/-- It is not in the first component. -/
theorem right_cons {outcome : Outcome PATH_MAX} (hcontains : ¬ Contains system exe component)
    (h : Right system exe rest outcome) (hsteps : ∀ b ∈ steps, b.Terminated) :
    Right system exe (component :: rest) ⟨outcome.found, outcome.pth, steps ++ outcome.steps⟩ := by
  refine ⟨?_, ?_, fun b hb => (List.mem_append.mp hb).elim (hsteps b) (h.terminated b)⟩
  · rw [h.found]
    simp [hcontains]
  · intro first hfirst
    rw [List.find?_cons_of_neg (by simpa using hcontains)] at hfirst
    exact h.first first hfirst

/-- The last component that is looked at. -/
theorem right_last {found : ℕ} (hfound : found ≠ 0 ↔ Contains system exe component)
    (hpth : Contains system exe component → pth.Holds (pathIn component exe))
    (hsteps : ∀ b ∈ steps, b.Terminated) :
    Right system exe [component] ⟨found, pth, steps⟩ := by
  by_cases hcontains : Contains system exe component
  · exact right_of_contains hcontains (hpth hcontains) hsteps (hfound.mpr hcontains)
  · obtain rfl : found = 0 := not_not.mp (mt hfound.mp hcontains)
    simpa using right_cons hcontains (right_nil pth) hsteps

/-- A last component that is too long. -/
theorem not_contains_of_long (hlen : PATH_MAX ≤ component.length) :
    ¬ Contains system exe component := by
  refine not_not.mpr ?_
  rw [checkifexecutable, system.tooLong]
  have hle : component.length ≤ (withSlash component).length := by
    rw [withSlash, List.length_append]
    omega
  rw [pathIn, List.length_append]
  split
  · rename_i hnil
    rw [hnil, List.length_nil] at hlen
    omega
  · omega

/-- What the loop gives for the last component. -/
def LastSpec (system : System PATH_MAX) (exe component : List UInt8) (full : Prop)
    (pth : Buffer (PATH_MAX + 1)) :
    Prop :=
  (Fit system exe full [component] →
    ∃ outcome, search system exe [component] pth = some outcome ∧
    Right system exe [component] outcome) ∧
    (¬ Fit system exe full [component] → search system exe [component] pth = none)

theorem search_short (hexe : 0 ∉ exe) (hnul : 0 ∉ component) (hlen : component.length < PATH_MAX)
    (full : Prop) :
    LastSpec system exe component full pth := by
  obtain ⟨copied, hcopied, -⟩ := pth.exists_strncpy component (Nat.le_succ PATH_MAX)
  have hholds := strncpy_short hcopied hnul hlen
  have hstrlen := Buffer.strlen_eq_some hholds
  have hfit : Fit system exe full [component] ↔ component ≠ [] ∧ Room PATH_MAX exe component := by
    unfold Fit
    simp only [hlen, true_and, Nat.not_le_of_lt hlen, false_and, or_false]
  rw [LastSpec, hfit]
  constructor
  · rintro ⟨hne, hroom⟩
    obtain ⟨slashed, named, hadd, hslashed, hfilled⟩ :=
      addName_of_room (Filled.self hholds) hne hexe hroom
    obtain ⟨hcheck, hpath⟩ := checkifexecutable_written system hne hroom
    refine ⟨⟨checkifexecutable system named.text, named, [copied, slashed, named]⟩, ?_, ?_⟩
    · simp [search, hcopied, hstrlen, hadd]
    · rw [hfilled.holds.text_eq]
      refine right_last (by rw [hcheck, Contains]) ?_ ?_
      · intro hcontains
        rw [← hpath (hcheck ▸ hcontains)]
        exact hfilled.holds
      · simpa using ⟨hholds.terminated, hslashed, hfilled.holds.terminated⟩
  · intro hnot
    by_cases hne : component = []
    · subst hne
      simp [search, hcopied, hstrlen, addName_empty]
    · have hadd := addName_eq_none hholds hne fun hroom => hnot ⟨hne, hroom⟩
      simp [search, hcopied, hstrlen, hadd]

/-- A last component that does not fit is cut to a string only if the last byte of the
buffer is a NUL. -/
theorem search_long (hexe : 0 ∉ exe) (hnul : 0 ∉ component) (hlen : PATH_MAX ≤ component.length)
    {full : Prop} (hfull : full ↔ pth.bytes[PATH_MAX]? = some 0) :
    LastSpec system exe component full pth := by
  obtain ⟨copied, hcopied, -⟩ := pth.exists_strncpy component (Nat.le_succ PATH_MAX)
  obtain ⟨hcut, hopen⟩ := strncpy_long hcopied hnul hlen
  have hlength : (component.take PATH_MAX).length = PATH_MAX := by
    rw [List.length_take]
    omega
  by_cases hzero : full
  · have hholds := hcut (hfull.mp hzero)
    have hstrlen := Buffer.strlen_eq_some hholds
    constructor
    · rintro ⟨-, ⟨hshort, -⟩ | ⟨-, -, hslashed⟩⟩
      · omega
      · have hne : component.take PATH_MAX ≠ [] := by
          intro hnil
          rw [hnil] at hslashed
          cases hslashed
        have hroom : Room PATH_MAX exe (component.take PATH_MAX) :=
          (room_of_slashed hslashed).mpr (Nat.le_of_eq hlength)
        obtain ⟨slashed, named, hadd, hterminated, hfilled⟩ :=
          addName_of_room (Filled.self hholds) hne hexe hroom
        have hcheck : checkifexecutable system named.text = 0 := by
          rw [hfilled.holds.text_eq, checkifexecutable, system.tooLong]
          rw [written, withSlash_of_slashed hslashed, List.length_append]
          omega
        refine ⟨⟨checkifexecutable system named.text, named, [copied, slashed, named]⟩, ?_, ?_⟩
        · simp [search, hcopied, hstrlen, hadd, -List.length_take]
        · have hcontains : ¬ Contains system exe component := not_contains_of_long hlen
          refine right_last (by simp [hcheck, hcontains]) (fun h => absurd h hcontains) ?_
          simpa using ⟨hholds.terminated, hterminated, hfilled.holds.terminated⟩
    · intro hnot
      by_cases hne : component.take PATH_MAX = []
      · rw [hne] at hstrlen
        simp [search, hcopied, hstrlen, addName_empty]
      · have hroom : ¬ Room PATH_MAX exe (component.take PATH_MAX) := by
          intro hroom
          refine hnot ⟨?_, .inr ⟨hlen, hzero, ?_⟩⟩
          · rintro rfl
            exact hne List.take_nil
          · by_contra hslashed
            have hfits := (room_of_not_slashed hslashed).mp hroom
            omega
        have hadd := addName_eq_none hholds hne hroom
        simp [search, hcopied, hstrlen, hadd, -List.length_take]
  · have hnone := Buffer.strlen_eq_none (hopen (mt hfull.mpr hzero))
    constructor
    · rintro ⟨-, ⟨hshort, -⟩ | ⟨-, hyes, -⟩⟩
      · omega
      · exact absurd hyes hzero
    · intro _
      simp [search, hcopied, hnone]

/-- **The loop** from any contents of the buffer: it is right if every component that is visited
fits, and leaves the buffer otherwise. -/
theorem search_spec (system : System PATH_MAX) (hexe : 0 ∉ exe) :
    ∀ (PATH : List (List UInt8)), (∀ component ∈ PATH, 0 ∉ component) →
    ∀ (pth : Buffer (PATH_MAX + 1)) (full : Prop), (full ↔ pth.bytes[PATH_MAX]? = some 0) →
      (Fit system exe full PATH →
          ∃ outcome, search system exe PATH pth = some outcome ∧ Right system exe PATH outcome) ∧
        (¬ Fit system exe full PATH → search system exe PATH pth = none)
  | [], _, pth, _, _ => ⟨fun _ => ⟨_, rfl, right_nil pth⟩, fun hnot => absurd trivial hnot⟩
  | [component], hnul, pth, full, hfull => by
    have hnul := hnul component List.mem_cons_self
    rcases Nat.lt_or_ge component.length PATH_MAX with hshort | hlong
    · exact search_short hexe hnul hshort full
    · exact search_long hexe hnul hlong hfull
  | component :: next :: rest, hnul, pth, full, hfull => by
    have hnul' := hnul component List.mem_cons_self
    by_cases hne : component = []
    · subst hne
      obtain ⟨copied, hcopied, -⟩ := Filled.copy pth hnul' (Nat.succ_pos PATH_MAX)
      refine ⟨fun hfit => absurd rfl hfit.1, fun _ => ?_⟩
      simp [search, hcopied, addName_empty]
    rcases Nat.lt_or_ge component.length (PATH_MAX + 1) with hlt | hge
    · obtain ⟨copied, hcopied, hfilled⟩ := Filled.copy pth hnul' hlt
      by_cases hroom : Room PATH_MAX exe component
      · obtain ⟨slashed, named, hadd, hslashed, hnamed⟩ := addName_of_room hfilled hne hexe hroom
        obtain ⟨hcheck, hpath⟩ := checkifexecutable_written system hne hroom
        have hsteps : ∀ b ∈ [copied, slashed, named], b.Terminated := by
          simpa using ⟨hfilled.holds.terminated, hslashed, hnamed.holds.terminated⟩
        have htext := hnamed.holds.text_eq
        by_cases hcontains : Contains system exe component
        · have hfound : checkifexecutable system named.text ≠ 0 := by
            rw [htext, hcheck]
            exact hcontains
          refine ⟨fun _ => ⟨⟨checkifexecutable system named.text, named, [copied, slashed, named]⟩,
            ?_, ?_⟩, ?_⟩
          · simp [search, hcopied, hadd, hfound]
          · refine right_of_contains hcontains ?_ hsteps hfound
            rw [← hpath (hcheck ▸ hcontains)]
            exact hnamed.holds
          · exact fun hnot => absurd ⟨hne, hroom, .inl hcontains⟩ hnot
        · have hfound : checkifexecutable system named.text = 0 := by
            rw [htext, hcheck]
            exact not_not.mp hcontains
          have hlast : (full ∨ PATH_MAX ≤ (pathIn component exe).length) ↔
            named.bytes[PATH_MAX]? = some 0 := by
            rw [last_filled hnamed, hfull, length_written hne hroom]
          obtain ⟨hyes, hno⟩ :=
            search_spec system hexe (next :: rest) (fun c hc =>
              hnul c (List.mem_cons_of_mem component hc)) named _
              hlast
          constructor
          · rintro ⟨-, -, hcontains' | hfit⟩
            · exact absurd hcontains' hcontains
            · obtain ⟨outcome, hsearch, hright⟩ := hyes hfit
              exact ⟨_, by simp [search, hcopied, hadd, hfound, hsearch],
                right_cons hcontains hright hsteps⟩
          · intro hnot
            have hsearch := hno fun hfit => hnot ⟨hne, hroom, .inr hfit⟩
            simp [search, hcopied, hadd, hfound, hsearch]
      · have hadd := addName_eq_none hfilled.holds hne hroom
        refine ⟨fun hfit => absurd hfit.2.1 hroom, fun _ => ?_⟩
        simp [search, hcopied, hadd]
    · have hcopied := copy_eq_none pth (s := component) hge
      refine ⟨?_, fun _ => by simp [search, hcopied]⟩
      rintro ⟨-, ⟨-, hle⟩ | hle, -⟩ <;> omega

end Loop

/-! ### Any contents of the buffer -/

section Finds

variable {PATH_MAX : ℕ} {system : System PATH_MAX} {exe : List UInt8}

theorem Fit.mono {full full' : Prop} (himp : full → full') : ∀ {PATH : List (List UInt8)},
    Fit system exe full PATH → Fit system exe full' PATH
  | [], h => h
  | [_], h => ⟨h.1, h.2.imp id fun hlong => ⟨hlong.1, himp hlong.2.1, hlong.2.2⟩⟩
  | _ :: _ :: _, h => ⟨h.1, h.2.1, h.2.2.imp id (Fit.mono (Or.imp_left himp))⟩

theorem mem_intercalate {sep component : List UInt8} {c : UInt8} (hc : c ∈ component) :
    ∀ {ls : List (List UInt8)}, component ∈ ls → c ∈ sep.intercalate ls
  | [_], hmem => by rwa [List.intercalate_singleton, ← List.mem_singleton.mp hmem]
  | first :: next :: rest, hmem => by
    rw [List.intercalate_cons_cons]
    rcases List.mem_cons.mp hmem with rfl | hmem
    · exact List.mem_append_left _ (List.mem_append_left _ hc)
    · exact List.mem_append_right _ (mem_intercalate hc hmem)

theorem not_mem_components : ∀ {PATH : Option CString}, ∀ component ∈ components PATH, 0 ∉ component
  | none, _, hc => absurd hc List.not_mem_nil
  | some searchpath, component, hc => by
    intro hmem
    rw [components] at hc
    split at hc
    · exact absurd hc List.not_mem_nil
    · have hjoin : [colon].intercalate (searchpath.bytes.splitOn colon) = searchpath.bytes :=
        List.intercalate_splitOn colon
      exact searchpath.noNul (hjoin ▸ mem_intercalate hmem hc)

/-- A buffer without a NUL. -/
def ones (n : ℕ) : Buffer n := ⟨List.replicate n 1, List.length_replicate⟩

end Finds

/-- No files at all. -/
def empty (PATH_MAX : ℕ) : System PATH_MAX := ⟨fun _ => none, fun _ => none, 0, 0, fun _ _ => rfl⟩

end ServeD.Launchers.PathSearch
