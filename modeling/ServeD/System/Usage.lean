import ServeD.Lib.JsonWriting

/-! # The reports about processes

`getProcessUsage` and `processDataToLearn` of `usage_sys.cc` (for FreeBSD, not on the console), with
`escapeJsonString` of `utils.cc`. Both write JSON piece by piece, with a comma or a bracket after
each process. The first one escapes its texts, the second one writes the name of a process as it is.

* `usage_iff`: the first report is the array of the processes exactly when there are no control
  characters in their texts, except for the five that have an escape of their own.
* `learn_iff`: the second one is the object with all processes exactly when no name needs an escape.
  -/

namespace ServeD.System.Usage

open ServeD.Lib.Texts ServeD.Lib.JsonText

/-! ### The processes -/

/-- Bytes that are valid UTF-8, with their text. -/
structure Utf8 where
  bytes : List UInt8
  text : Text
  utf8_text : utf8 text = bytes

def Utf8.ofText (s : Text) : Utf8 := ⟨utf8 s, s, rfl⟩

/-- What the reports read of a `kinfo_proc`, and of its arguments and files. -/
structure Process where
  kiPid : ℤ
  kiPpid : ℤ
  kiComm : Utf8
  /-- `kvm_getargv`, `none` for the null pointer -/
  args : Option (List Utf8)
  /-- what `procstat_files` returns, `none` if `procstat_getprocs` finds no process -/
  files : Option Utf8
  kiRssize : ℤ
  ruMaxrss : ℤ
  kiRuntime : ℕ
  ruInblock : ℤ
  ruOublock : ℤ
  kiNumthreads : ℤ
  priLevel : UInt8

/-- A string literal. -/
def ascii (s : String) : List UInt8 := utf8 s.toList

/-- How a stream writes an integer. -/
def decimal (i : ℤ) : List UInt8 := utf8 (toString i).toList

def ord (c : UInt8) : ℤ := c.toNat

def escapeByte (b : UInt8) : List UInt8 :=
  match b with
  | 0x5c => ascii "\\\\"
  | 0x22 => ascii "\\\""
  | 0x08 => ascii "\\b"
  | 0x0c => ascii "\\f"
  | 0x0a => ascii "\\n"
  | 0x0d => ascii "\\r"
  | 0x09 => ascii "\\t"
  | b => [b]

/-- `escapeJsonString`. -/
def escapeJsonString (input : List UInt8) : List UInt8 := input.flatMap escapeByte

/-- The loop over the arguments, from number `y` on. -/
def appendArgs : ℕ → List UInt8 → List Utf8 → List UInt8
  | _, command, [] => command
  | y, command, arg :: args =>
    appendArgs (y + 1) (if y = 0 then arg.bytes else command ++ (ascii " " ++ arg.bytes)) args

def Process.command (p : Process) : List UInt8 :=
  match p.args with
  | none => []
  | some args => appendArgs 0 [] args

def Process.netinfo (p : Process) : List UInt8 :=
  match p.files with
  | none => []
  | some s => s.bytes

/-! ### The reports -/

section Reports

variable (pagesize : ℤ)

/-- What `getProcessUsage` writes for a process, between the brackets and commas. The sizes in bytes
fit into their word of 64 bits. -/
def usage (p : Process) : List UInt8 :=
  ascii "\x7b\"pid\":" ++ decimal p.kiPid ++ ascii "," ++
    ascii "\"ppid\":" ++ decimal p.kiPpid ++ ascii "," ++
    ascii "\"name\":\"" ++ escapeJsonString p.kiComm.bytes ++ ascii "\"," ++
    ascii "\"cmd\":\"" ++ escapeJsonString p.command ++ ascii "\"," ++
    ascii "\"rss\":" ++ decimal (p.kiRssize * pagesize) ++ ascii "," ++
    ascii "\"mrss\":" ++ decimal (p.ruMaxrss * pagesize) ++ ascii "," ++
    ascii "\"runtime\":" ++ decimal (p.kiRuntime / 1000 : ℕ) ++ ascii "," ++
    ascii "\"blk-in\":" ++ decimal p.ruInblock ++ ascii "," ++
    ascii "\"blk-out\":" ++ decimal p.ruOublock ++ ascii "," ++
    ascii "\"thr\":" ++ decimal p.kiNumthreads ++ ascii "," ++
    ascii "\"pri-nrml\":" ++ decimal (ord p.priLevel) ++ ascii "," ++
    ascii "\"netinfo\":\"" ++ escapeJsonString p.netinfo ++ ascii "\"\x7d"

/-- The loop of `getProcessUsage`, from process number `i` on. -/
def usageFrom (count : ℕ) : ℕ → List Process → List UInt8
  | _, [] => []
  | i, p :: procs =>
    (if i = 0 then ascii "[" else []) ++ usage pagesize p ++ (if i = count - 1 then ascii "]"
      else ascii ",") ++
      usageFrom count (i + 1) procs

/-- `getProcessUsage(uid, false)`. The processes are `none` if there is no kernel descriptor. -/
def getProcessUsage : Option (List Process) → List UInt8
  | none => ascii "KDERR"
  | some procs => if procs.length ≤ 0 then ascii "NOPCS"
    else usageFrom pagesize procs.length 0 procs

/-- What `processDataToLearn` writes for a process, with a size that fits as well. -/
def learnt (p : Process) : List UInt8 :=
  ascii "\x7b\"cmd\":\"" ++ p.kiComm.bytes ++ ascii "\"," ++
    ascii "\"pid\":" ++ decimal p.kiPid ++ ascii "," ++
    ascii "\"ppid\":" ++ decimal p.kiPpid ++ ascii "," ++
    ascii "\"runt\":" ++ decimal (p.kiRuntime / 1000 : ℕ) ++ ascii "," ++
    ascii "\"ioin\":" ++ decimal p.ruInblock ++ ascii "," ++
    ascii "\"ioout\":" ++ decimal p.ruOublock ++ ascii "," ++
    ascii "\"rss\":" ++ decimal (p.kiRssize * pagesize) ++ ascii "\x7d"

/-- The loop of `processDataToLearn`. -/
def learnFrom (count : ℕ) : ℕ → List Process → List UInt8
  | _, [] => []
  | i, p :: procs => learnt pagesize p ++ (if i + 1 ≠ count then ascii "," else []) ++
    learnFrom count (i + 1) procs

/-- `processDataToLearn`. -/
def processDataToLearn : Option (List Process) → List UInt8
  | none => ascii "\x7b\"message\": \"KDERR\", \"status\":-1\x7d"
  | some procs =>
    if procs.length ≤ 0 then ascii "\x7b\"message\": \"NOPCS\", \"status\":-2\x7d"
    else ascii "\x7b\"message\": \"Ok\", \"status\":0, \"content\": [" ++
      learnFrom pagesize procs.length 0 procs ++
      ascii "]\x7d"

end Reports

/-! ### What the reports are to say -/

def number (i : ℤ) : Json := .number (toString i).toList

def string (s : Text) : Json := .string (utf16 s)

def fields (ms : List (String × Json)) : Json := .object (ms.map fun m => (utf16 m.1.toList, m.2))

/-- The command line: the arguments with blanks between them. -/
def Process.commandText (p : Process) : Text := mkString " ".toList ((p.args.getD []).map Utf8.text)

def Process.netinfoText (p : Process) : Text := (p.files.map Utf8.text).getD []

def usageJson (pagesize : ℤ) (p : Process) : Json :=
  fields [("pid", number p.kiPid), ("ppid", number p.kiPpid), ("name", string p.kiComm.text),
    ("cmd", string p.commandText), ("rss", number (p.kiRssize * pagesize)),
    ("mrss", number (p.ruMaxrss * pagesize)), ("runtime", number (p.kiRuntime / 1000 : ℕ)),
    ("blk-in", number p.ruInblock), ("blk-out", number p.ruOublock), ("thr", number p.kiNumthreads),
    ("pri-nrml", number (ord p.priLevel)), ("netinfo", string p.netinfoText)]

def learntJson (pagesize : ℤ) (p : Process) : Json :=
  fields [("cmd", string p.kiComm.text), ("pid", number p.kiPid), ("ppid", number p.kiPpid),
    ("runt", number (p.kiRuntime / 1000 : ℕ)), ("ioin", number p.ruInblock),
    ("ioout", number p.ruOublock), ("rss", number (p.kiRssize * pagesize))]

/-- The bytes are a JSON text with this value. -/
def DenotesBytes (bytes : List UInt8) (v : Json) : Prop := ∃ s, utf8 s = bytes ∧ Denotes s v

/-- The report of `getProcessUsage` is an array with an object for each process. -/
def Reported (pagesize : ℤ) (procs : List Process) : Prop :=
  DenotesBytes (getProcessUsage pagesize (some procs)) (.array (procs.map (usageJson pagesize)))

/-- The report of `processDataToLearn` is an object whose content is an array with an
object for each process. -/
def Learnable (pagesize : ℤ) (procs : List Process) : Prop :=
  DenotesBytes (processDataToLearn pagesize (some procs))
    (fields [("message", string "Ok".toList), ("status", number 0),
      ("content", .array (procs.map (learntJson pagesize)))])

/-- Between quotes, the escaped bytes are a string that decodes to their text. -/
def Escaped (s : Utf8) : Prop := DenotesBytes (ascii "\"" ++ escapeJsonString s.bytes ++ ascii "\"")
    (string s.text)

/-- The character is no control character, or one with an escape of its own. -/
def Writable (c : Char) : Prop := 0x20 ≤ c.toNat ∨ c ∈ ['\x08', '\x0c', '\n', '\r', '\t']

instance : DecidablePred Writable := fun c =>
  inferInstanceAs (Decidable (0x20 ≤ c.toNat ∨ c ∈ ['\x08', '\x0c', '\n', '\r', '\t']))

/-- All texts of the process can be written: its name, its arguments and the net info. -/
def Process.Writable (p : Process) : Prop :=
  (∀ c ∈ p.kiComm.text, Usage.Writable c) ∧ (∀ arg ∈ p.args.getD [], ∀ c ∈ arg.text,
    Usage.Writable c) ∧
    ∀ c ∈ p.netinfoText, Usage.Writable c

/-! ### Escapes -/

def escapeChar : Char → Text
  | '\\' => ['\\', '\\']
  | '"' => ['\\', '"']
  | '\x08' => ['\\', 'b']
  | '\x0c' => ['\\', 'f']
  | '\n' => ['\\', 'n']
  | '\r' => ['\\', 'r']
  | '\t' => ['\\', 't']
  | c => [c]

def escapeText (s : Text) : Text := s.flatMap escapeChar

theorem escapeByte_ascii :
    ∀ n < 128, escapeByte (UInt8.ofNat n) = utf8 (escapeChar (Char.ofNat n)) := by decide

theorem escapeByte_of_le {b : UInt8} (h : 128 ≤ b.toNat) : escapeByte b = [b] := by
  unfold escapeByte
  split
  all_goals first | rfl | exact absurd h (by decide)

theorem escapeChar_of_le {c : Char} (h : 128 ≤ c.toNat) : escapeChar c = [c] := by
  unfold escapeChar
  split
  all_goals first | rfl | exact absurd h (by decide)

theorem flatMap_escapeByte (c : Char) : (String.utf8EncodeChar c).flatMap escapeByte = utf8
    (escapeChar c) := by
  rcases Nat.lt_or_ge c.toNat 128 with h | h
  · rw [utf8EncodeChar_ascii h, List.flatMap_singleton, escapeByte_ascii c.toNat h,
    Char.ofNat_toNat]
  · have hbytes : (String.utf8EncodeChar c).flatMap escapeByte =
      (String.utf8EncodeChar c).flatMap ([·]) :=
      List.flatMap_congr fun b hb => escapeByte_of_le (le_of_mem_utf8EncodeChar h hb)
    rw [hbytes, escapeChar_of_le h, List.flatMap_singleton']
    exact (List.append_nil _).symm

/-- The escaper works on characters. -/
theorem escapeJsonString_utf8 (s : Text) : escapeJsonString (utf8 s) = utf8 (escapeText s) := by
  induction s with
  | nil => rfl
  | cons c s ih =>
    have hsplit : escapeText (c :: s) = escapeChar c ++ escapeText s := List.flatMap_cons
    rw [hsplit, utf8_append, ← ih, ← flatMap_escapeByte, utf8_cons]
    exact List.flatMap_append

theorem escapeChar_cases (c : Char) :
    (∃ d, escapeChar c = ['\\', d] ∧ unescape d = some c.toNat ∧ c.toNat < 128 ∧ Writable c) ∨
      (escapeChar c = [c] ∧ (Writable c → PlainChar c)) := by
  unfold escapeChar
  split
  case h_8 c h₁ h₂ h₃ h₄ h₅ h₆ h₇ =>
    refine .inr ⟨rfl, fun hc => ⟨h₂, h₁, hc.resolve_right ?_⟩⟩
    simp only [List.mem_cons, List.not_mem_nil, or_false, not_or]
    exact ⟨h₃, h₄, h₅, h₆, h₇⟩
  all_goals exact .inl ⟨_, rfl, rfl, by decide, by decide⟩

theorem standsFor_escapeChar {c : Char} (h : Writable c) : StandsFor (escapeChar c) c := by
  rcases escapeChar_cases c with ⟨d, heq, hd, hc, -⟩ | ⟨heq, hplain⟩
  · rw [heq]
    exact standsFor_escape hd hc
  · rw [heq]
    exact (hplain h).standsFor

/-- What cannot be written is left as it is, and no JSON text has it. -/
theorem writable_of_readable {c : Char} (h : ∀ d ∈ escapeChar c, Readable d) : Writable c := by
  rcases escapeChar_cases c with ⟨d, -, -, -, hc⟩ | ⟨heq, -⟩
  · exact hc
  · rw [heq, List.forall_mem_singleton] at h
    rcases h with hws | hge
    · simp only [isWs, Bool.or_eq_true, beq_iff_eq] at hws
      rcases hws with ((rfl | rfl) | rfl) | rfl <;> decide
    · exact .inl hge

theorem writable_of_escapeText {s : Text} (h : ∀ d ∈ escapeText s, Readable d) :
    ∀ c ∈ s, Writable c := by
  intro c hc
  exact writable_of_readable fun d hd => h d (List.mem_flatMap.mpr ⟨c, hc, hd⟩)

theorem denotesBytes_utf8 {s : Text} {v : Json} : DenotesBytes (utf8 s) v ↔ Denotes s v := by
  constructor
  · rintro ⟨t, ht, h⟩
    rwa [← utf8_injective ht]
  · exact fun h => ⟨s, rfl, h⟩

theorem Denotes.of_reads {s : Text} {v : Json} (h : Reads (.value v) s []) : Denotes s v :=
  ⟨[], by rwa [h.skipWs_eq], rfl⟩

/-- **The quoted escaped text is a string that decodes to it exactly when there is no control
character without an escape of its own**. -/
theorem escaped_iff (s : Utf8) : Escaped s ↔ ∀ c ∈ s.text, Writable c := by
  obtain ⟨bytes, s, rfl⟩ := s
  have htext : ascii "\"" ++ escapeJsonString (utf8 s) ++ ascii "\"" =
    utf8 ('"' :: (escapeText s ++ ['"'])) := by
    rw [escapeJsonString_utf8, ascii, ← utf8_append, ← utf8_append]
    rfl
  show DenotesBytes (ascii "\"" ++ escapeJsonString (utf8 s) ++ ascii "\"") (string s) ↔ _
  rw [htext, denotesBytes_utf8]
  constructor
  · intro h
    refine writable_of_escapeText fun d hd => Denotes.readable h d ?_
    exact List.mem_cons_of_mem _ (List.mem_append_left _ hd)
  · intro h
    exact Denotes.of_reads (reads_quoted fun c hc => standsFor_escapeChar (h c hc))

/-! ### The reports as texts -/

def intMember (name : String) (i : ℤ) : Member := ⟨name.toList, (toString i).toList, number i⟩

def stringMember (name : String) (s : Text) : Member :=
  ⟨name.toList, '"' :: (escapeText s ++ ['"']), string s⟩

def usageMembers (pagesize : ℤ) (p : Process) : List Member :=
  [intMember "pid" p.kiPid, intMember "ppid" p.kiPpid, stringMember "name" p.kiComm.text,
    stringMember "cmd" p.commandText, intMember "rss" (p.kiRssize * pagesize),
    intMember "mrss" (p.ruMaxrss * pagesize), intMember "runtime" (p.kiRuntime / 1000 : ℕ),
    intMember "blk-in" p.ruInblock, intMember "blk-out" p.ruOublock, intMember "thr" p.kiNumthreads,
    intMember "pri-nrml" (ord p.priLevel), stringMember "netinfo" p.netinfoText]

theorem usageJson_eq (pagesize : ℤ) (p : Process) :
    usageJson pagesize p = .object ((usageMembers pagesize p).map Member.pair) := rfl

/-- After the first argument, the others come with a blank before each. -/
theorem appendArgs_eq (args : List Utf8) : ∀ (arg : Utf8) (y : ℕ) (command : Text), y ≠ 0 →
    appendArgs y (utf8 (command ++ arg.text)) args =
      utf8 (command ++ mkString " ".toList ((arg :: args).map Utf8.text)) := by
  induction args with
  | nil => exact fun _ _ _ _ => rfl
  | cons next args ih =>
    intro arg y command hy
    have hstep := ih next (y + 1) (command ++ arg.text ++ " ".toList) (by omega)
    have hcommand : utf8 (command ++ arg.text) ++ (ascii " " ++ next.bytes) =
        utf8 (command ++ arg.text ++ " ".toList ++ next.text) := by
      rw [← next.utf8_text, ascii, utf8_append (command ++ arg.text ++ " ".toList),
        utf8_append (command ++ arg.text), List.append_assoc]
    rw [appendArgs, if_neg hy, hcommand, hstep, mkString_map_cons]
    simp only [List.append_assoc]

theorem Process.command_eq (p : Process) : p.command = utf8 p.commandText := by
  obtain ⟨_, _, _, args, _⟩ := p
  rcases args with _ | _ | ⟨arg, args⟩
  · rfl
  · rfl
  · have hrest := appendArgs_eq args arg 1 [] (by decide)
    rw [List.nil_append, List.nil_append, arg.utf8_text] at hrest
    exact hrest

theorem Process.netinfo_eq (p : Process) : p.netinfo = utf8 p.netinfoText := by
  obtain ⟨_, _, _, _, files, _⟩ := p
  rcases files with _ | s
  · rfl
  · exact s.utf8_text.symm

theorem usage_eq (pagesize : ℤ) (p : Process) :
    usage pagesize p = utf8 (writeObject (usageMembers pagesize p)) := by
  unfold usage
  rw [p.command_eq, p.netinfo_eq, ← p.kiComm.utf8_text]
  simp only [escapeJsonString_utf8, ascii, decimal, ← utf8_append]
  refine congrArg utf8 ?_
  simp [writeObject, usageMembers, Member.written, intMember, stringMember, mkString]

/-- Brackets come before the first process and after the last one, commas between them. -/
theorem usageFrom_eq (pagesize : ℤ) (count : ℕ) (procs : List Process) : ∀ (p : Process) (i : ℕ),
    i + (p :: procs).length = count → usageFrom pagesize count i (p :: procs) =
      (if i = 0 then ascii "[" else []) ++
      utf8 (mkString [','] ((p :: procs).map fun q => writeObject (usageMembers pagesize q)) ++
        [']']) := by
  induction procs with
  | nil =>
    intro p i hi
    have hlast : i = count - 1 := by
      rw [← hi, List.length_singleton]
      omega
    rw [usageFrom, if_pos hlast, usageFrom, usage_eq, List.append_nil,
      List.append_assoc, utf8_append]
    rfl
  | cons q procs ih =>
    intro p i hi
    simp only [List.length_cons] at hi ih
    have hlast : i ≠ count - 1 := by omega
    have hrest := ih q (i + 1) (by omega)
    rw [if_neg (by omega), List.nil_append] at hrest
    rw [usageFrom, if_neg hlast, hrest, usage_eq, mkString_map_cons, List.append_assoc (_ ++ _),
      List.append_assoc]
    simp only [ascii, ← utf8_append, List.append_assoc]
    rfl

theorem getProcessUsage_eq (pagesize : ℤ) (p : Process) (procs : List Process) :
    getProcessUsage pagesize (some (p :: procs)) =
      utf8 (writeArray ((p :: procs).map fun q => writeObject (usageMembers pagesize q))) := by
  have hlen : ¬ (p :: procs).length ≤ 0 := by
    rw [List.length_cons]
    omega
  rw [getProcessUsage, if_neg hlen, usageFrom_eq pagesize _ procs p 0 (Nat.zero_add _),
    if_pos rfl, ascii, ← utf8_append]
  rfl

def learntMembers (pagesize : ℤ) (p : Process) : List Member :=
  [intMember "ppid" p.kiPpid, intMember "runt" (p.kiRuntime / 1000 : ℕ),
    intMember "ioin" p.ruInblock, intMember "ioout" p.ruOublock,
    intMember "rss" (p.kiRssize * pagesize)]

/-- The name between quotes, as it is. -/
def rawMember (name : String) (s : Text) : Member := ⟨name.toList, '"' :: (s ++ ['"']), string s⟩

def learntText (pagesize : ℤ) (p : Process) : Text :=
  writeObject (rawMember "cmd" p.kiComm.text :: intMember "pid" p.kiPid :: learntMembers pagesize p)

theorem learntJson_eq (pagesize : ℤ) (p : Process) : learntJson pagesize p =
    .object ((rawMember "cmd" p.kiComm.text :: intMember "pid" p.kiPid ::
        learntMembers pagesize p).map
      Member.pair) := rfl

theorem learnt_eq (pagesize : ℤ) (p : Process) :
    learnt pagesize p = utf8 (learntText pagesize p) := by
  unfold learnt
  rw [← p.kiComm.utf8_text]
  simp only [ascii, decimal, ← utf8_append]
  refine congrArg utf8 ?_
  simp [learntText, writeObject, learntMembers, Member.written, intMember, rawMember, mkString]

theorem learnFrom_eq (pagesize : ℤ) (count : ℕ) (procs : List Process) : ∀ (p : Process) (i : ℕ),
    i + (p :: procs).length = count →
    learnFrom pagesize count i (p :: procs) = utf8
      (mkString [','] ((p :: procs).map (learntText pagesize))) := by
  induction procs with
  | nil =>
    intro p i hi
    rw [List.length_singleton] at hi
    rw [learnFrom, if_neg (not_not.mpr hi), learnFrom, learnt_eq, List.append_nil, List.append_nil]
    rfl
  | cons q procs ih =>
    intro p i hi
    simp only [List.length_cons] at hi ih
    rw [learnFrom, if_pos (by omega), ih q (i + 1) (by omega), learnt_eq, mkString_map_cons, ascii,
      ← utf8_append, ← utf8_append, List.append_assoc]
    rfl

/-- What stands before the processes. -/
def preamble (rest : Text) : Text :=
  '\x7b' :: '"' :: ("message".toList ++ '"' :: ':' :: ' ' :: '"' ::
    ("Ok".toList ++ '"' :: ',' :: ' ' :: '"' ::
    ("status".toList ++ '"' :: ':' :: '0' :: ',' :: ' ' :: '"' ::
      ("content".toList ++ '"' :: ':' :: ' ' :: rest))))

theorem processDataToLearn_eq (pagesize : ℤ) (p : Process) (procs : List Process) :
    processDataToLearn pagesize (some (p :: procs)) =
      utf8 (preamble (writeArray ((p :: procs).map (learntText pagesize)) ++ ['\x7d'])) := by
  have hlen : ¬ (p :: procs).length ≤ 0 := by
    rw [List.length_cons]
    omega
  unfold processDataToLearn
  simp only [if_neg hlen, learnFrom_eq pagesize _ procs p 0 (Nat.zero_add _), ascii, ← utf8_append]
  refine congrArg utf8 ?_
  simp [preamble, writeArray]

/-! ### When the reports are well formed -/

theorem sound_intMember {name : String} (h : Plain name.toList) (i : ℤ) :
    (intMember name i).Sound := by
  have hread := Reads.number (r := []) (isNumber_toString i)
  rw [List.append_nil] at hread
  exact ⟨h, hread⟩

theorem exact_intMember {name : String} (h : Plain name.toList) (i : ℤ) :
    (intMember name i).Exact := by
  have hnumber := isNumber_toString i
  refine ⟨h, hnumber.skipWs_eq, fun {t r} hread => ?_⟩
  change Reads (.value (.number (toString i).toList)) ((toString i).toList ++ t) r at hread
  generalize hx : (toString i).toList ++ t = x at hread
  cases hread with
  | number => exact (List.append_cancel_left hx).symm

theorem sound_stringMember {name : String} (h : Plain name.toList) {s : Text}
    (hs : ∀ c ∈ s, Writable c) :
    (stringMember name s).Sound :=
  ⟨h, reads_quoted fun c hc => standsFor_escapeChar (hs c hc)⟩

theorem sound_rawMember {name : String} (h : Plain name.toList) {s : Text} (hs : Plain s) :
    (rawMember name s).Sound :=
  ⟨h, .string (hs.chars [])⟩

theorem writable_commandText (p : Process) :
    (∀ c ∈ p.commandText, Writable c) ↔ ∀ arg ∈ p.args.getD [], ∀ c ∈ arg.text, Writable c := by
  constructor
  · intro h arg harg c hc
    exact h c (mem_mkString ⟨arg.text, List.mem_map_of_mem harg, hc⟩)
  · intro h c hc
    rcases mem_of_mem_mkString hc with hblank | ⟨s, hs, hcs⟩
    · rw [List.mem_singleton.mp hblank]
      decide
    · obtain ⟨arg, harg, rfl⟩ := List.mem_map.mp hs
      exact h arg harg c hcs

/-- What is written for a text of a process is in the report. -/
theorem mem_usage {pagesize : ℤ} {procs : List Process} {p : Process} (hp : p ∈ procs) {m : Member}
    (hm : m ∈ usageMembers pagesize p) {c : Char} (hc : c ∈ m.text) :
    c ∈ writeArray (procs.map fun q => writeObject (usageMembers pagesize q)) := by
  have hmember : c ∈ m.written :=
    List.mem_cons_of_mem _ (List.mem_append_right _
      (List.mem_cons_of_mem _ (List.mem_cons_of_mem _ hc)))
  have hobject : c ∈ writeObject (usageMembers pagesize p) :=
    List.mem_cons_of_mem _ (List.mem_append_left _
      (mem_mkString ⟨_, List.mem_map_of_mem hm, hmember⟩))
  have hproc := List.mem_map_of_mem (f := fun q => writeObject (usageMembers pagesize q)) hp
  exact List.mem_cons_of_mem _ (List.mem_append_left _ (mem_mkString ⟨_, hproc, hobject⟩))

/-- **The report of the usage is the array of the processes exactly when all their
texts can be written**. -/
theorem usage_iff (pagesize : ℤ) (p : Process) (procs : List Process) :
    Reported pagesize (p :: procs) ↔ ∀ q ∈ p :: procs, q.Writable := by
  rw [Reported, getProcessUsage_eq, denotesBytes_utf8]
  constructor
  · intro h q hq
    have htext : ∀ (name : String) (s : Text), stringMember name s ∈ usageMembers pagesize q →
        ∀ c ∈ s, Writable c := by
      intro name s hm
      refine writable_of_escapeText fun d hd => Denotes.readable h d (mem_usage hq hm ?_)
      exact List.mem_cons_of_mem _ (List.mem_append_left _ hd)
    refine ⟨htext "name" _ ?_, (writable_commandText q).mp (htext "cmd" _ ?_), htext "netinfo" _ ?_⟩
    all_goals simp [usageMembers]
  · intro h
    refine Denotes.of_reads (reads_writeArray (List.cons_ne_nil p procs) fun q hq => ?_)
    obtain ⟨hname, hargs, hnetinfo⟩ := h q hq
    rw [usageJson_eq]
    refine reads_writeObject (List.cons_ne_nil _ _) ?_
    have hcommand := (writable_commandText q).mpr hargs
    simp only [usageMembers, List.forall_mem_cons, List.not_mem_nil, false_implies,
      implies_true, and_true]
    refine ⟨sound_intMember ?_ _, sound_intMember ?_ _, sound_stringMember ?_ hname,
      sound_stringMember ?_ hcommand, sound_intMember ?_ _, sound_intMember ?_ _,
      sound_intMember ?_ _, sound_intMember ?_ _, sound_intMember ?_ _, sound_intMember ?_ _,
        sound_intMember ?_ _, sound_stringMember ?_ hnetinfo⟩
    all_goals decide

/-- What is read for the object of a process ends with it, and the name is plain. -/
theorem learnt_exact {pagesize : ℤ} {p : Process} {t r : Text}
    (h : Reads (.value (learntJson pagesize p)) (skipWs (learntText pagesize p ++ t)) r) :
    Plain p.kiComm.text ∧ r = t := by
  have hcmd : Plain "cmd".toList := by decide
  have hexact : ∀ m ∈ intMember "pid" p.kiPid :: learntMembers pagesize p, m.Exact := by
    simp only [learntMembers, List.forall_mem_cons, List.not_mem_nil, false_implies,
      implies_true, and_true]
    refine ⟨exact_intMember ?_ _, exact_intMember ?_ _, exact_intMember ?_ _, exact_intMember ?_ _,
      exact_intMember ?_ _, exact_intMember ?_ _⟩
    all_goals decide
  set numbers :=
    mkString [','] ((intMember "pid" p.kiPid :: learntMembers pagesize p).map Member.written) ++
    '\x7d' :: t with hnumbers
  have htext : skipWs (learntText pagesize p ++ t) = '\x7b' :: '"' ::
    ("cmd".toList ++ '"' :: ':' :: '"' ::
      (p.kiComm.text ++ '"' :: ',' :: numbers)) := by
    rw [hnumbers, learntText, writeObject, mkString_map_cons]
    simp [Member.written, rawMember, skipWs, isWs]
  rw [htext, learntJson_eq] at h
  cases h with
  | object hms =>
    obtain ⟨v, ms, heq, q, hv, hnext⟩ := hms.member_inv hcmd rfl
    obtain ⟨hpair, rfl⟩ := List.cons.inj heq
    obtain rfl : string p.kiComm.text = v := (Prod.mk.inj hpair).2
    obtain ⟨u, hu, hchars⟩ := Reads.string_inv hv
    obtain rfl := Json.string.inj hu
    obtain ⟨hplain, rfl⟩ := hchars.plain_of_comma
    rcases hnext with ⟨hnil, -⟩ | ⟨q', hq, hrest⟩
    · cases hnil
    · obtain ⟨-, rfl⟩ := List.cons.inj hq
      exact ⟨hplain, Reads.members_exact _ _ hexact hrest⟩

theorem reads_learntText (pagesize : ℤ) {p : Process} (h : Plain p.kiComm.text) :
    Reads (.value (learntJson pagesize p)) (learntText pagesize p) [] := by
  rw [learntJson_eq]
  refine reads_writeObject (List.cons_ne_nil _ _) ?_
  simp only [learntMembers, List.forall_mem_cons, List.not_mem_nil, false_implies,
    implies_true, and_true]
  refine ⟨sound_rawMember ?_ h, sound_intMember ?_ _, sound_intMember ?_ _, sound_intMember ?_ _,
    sound_intMember ?_ _, sound_intMember ?_ _, sound_intMember ?_ _⟩
  all_goals decide

section Preamble

variable {vs : List Json} {rest : Text}

theorem denotes_preamble (h : Reads (.value (.array vs)) rest ['\x7d']) : Denotes (preamble rest)
    (fields [("message", string "Ok".toList), ("status", number 0), ("content", .array vs)]) := by
  have hmessage : Plain "message".toList := by decide
  have hok : Plain "Ok".toList := by decide
  have hstatus : Plain "status".toList := by decide
  have hcontent : Plain "content".toList := by decide
  have hzero : IsNumber ['0'] := isNumber_toString 0
  rw [← h.skipWs_eq] at h
  exact ⟨[], .object (.member rfl (hmessage.chars _) rfl (.string (hok.chars _)) rfl
    (.member rfl (hstatus.chars _) rfl (.number hzero) rfl
      (.lastMember rfl (hcontent.chars _) rfl h rfl))), rfl⟩

theorem reads_of_denotes_preamble (h : Denotes (preamble rest)
    (fields [("message", string "Ok".toList), ("status", number 0), ("content", .array vs)])) :
    ∃ r, Reads (.value (.array vs)) (skipWs rest) r := by
  have hmessage : Plain "message".toList := by decide
  have hok : Plain "Ok".toList := by decide
  have hstatus : Plain "status".toList := by decide
  have hcontent : Plain "content".toList := by decide
  obtain ⟨r, hread, -⟩ := h
  change Reads _ ('\x7b' :: _) r at hread
  cases hread with
  | object hms =>
    obtain ⟨v, ms, heq, q, hv, hnext⟩ := hms.member_inv hmessage rfl
    obtain ⟨hpair, rfl⟩ := List.cons.inj heq
    obtain rfl : string "Ok".toList = v := (Prod.mk.inj hpair).2
    obtain ⟨u, hu, hchars⟩ := Reads.string_inv hv
    obtain rfl := (hok.eq_of_chars hchars).2
    obtain ⟨q', hq, hms'⟩ := hnext.resolve_left fun hnil => List.cons_ne_nil _ _ hnil.1
    obtain ⟨-, rfl⟩ := List.cons.inj hq
    obtain ⟨v, ms, heq', q, hv', hnext'⟩ := hms'.member_inv hstatus rfl
    obtain ⟨hpair', rfl⟩ := List.cons.inj heq'
    obtain rfl : number 0 = v := (Prod.mk.inj hpair').2
    obtain rfl := (exact_intMember hstatus 0).exact hv'
    obtain ⟨q', hq', hms''⟩ := hnext'.resolve_left fun hnil => List.cons_ne_nil _ _ hnil.1
    obtain ⟨-, rfl⟩ := List.cons.inj hq'
    obtain ⟨v, ms, heq'', q, hv'', -⟩ := hms''.member_inv hcontent rfl
    obtain rfl : Json.array vs = v := (Prod.mk.inj (List.cons.inj heq'').1).2
    exact ⟨q, hv''⟩

end Preamble

/-- **The other report is the object with the processes exactly when their names need
no escapes**. -/
theorem learn_iff (pagesize : ℤ) (p : Process) (procs : List Process) :
    Learnable pagesize (p :: procs) ↔ ∀ q ∈ p :: procs, Plain q.kiComm.text := by
  rw [Learnable, processDataToLearn_eq, denotesBytes_utf8]
  constructor
  · intro h
    obtain ⟨r, hread⟩ := reads_of_denotes_preamble h
    have htext : skipWs (writeArray ((p :: procs).map (learntText pagesize)) ++ ['\x7d']) =
        '[' :: (mkString [','] ((p :: procs).map (learntText pagesize)) ++ ']' :: ['\x7d']) := by
      simp [writeArray, skipWs, isWs]
    rw [htext] at hread
    exact (Reads.elements_exact learnt_exact procs p (hread.array_inv (List.cons_ne_nil _ _))).1
  · intro h
    refine denotes_preamble ?_
    exact (reads_writeArray (List.cons_ne_nil p procs) fun q hq =>
      reads_learntText pagesize (h q hq)).frame ['\x7d']

/-- **The reports are well formed exactly if the texts of the processes allow it**,
each one on its own condition. -/
theorem reports_iff (pagesize : ℤ) (p : Process) (procs : List Process) (s : Utf8) :
    (Reported pagesize (p :: procs) ↔ ∀ q ∈ p :: procs, q.Writable) ∧
      (Learnable pagesize (p :: procs) ↔ ∀ q ∈ p :: procs, Plain q.kiComm.text) ∧
      (Escaped s ↔ ∀ c ∈ s.text, Writable c) :=
  ⟨usage_iff pagesize p procs, learn_iff pagesize p procs, escaped_iff s⟩

/-- A process with such a name, and nothing else. -/
def named (name : Text) : Process :=
  ⟨1, 0, Utf8.ofText name, none, none, 0, 0, 0, 0, 0, 1, 0⟩

/-- The reports about a process whose name is a quote and the control character 1. -/
theorem not_reports : ¬ Reported 4096 [named ['"', '\x01']] ∧
    ¬ Learnable 4096 [named ['"', '\x01']] ∧
    ¬ Escaped (Utf8.ofText ['\x01']) := by
  refine ⟨fun h => ?_, fun h => ?_, fun h => ?_⟩
  · obtain ⟨hname, -, -⟩ := (usage_iff 4096 _ []).mp h _ List.mem_cons_self
    exact absurd (hname '\x01' (by decide)) (by decide)
  · have hname := (learn_iff 4096 _ []).mp h _ List.mem_cons_self
    exact absurd (hname '"' (by decide)) (by decide)
  · exact absurd ((escaped_iff _).mp h '\x01' (by decide)) (by decide)

end ServeD.System.Usage
