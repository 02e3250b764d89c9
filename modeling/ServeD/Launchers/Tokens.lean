import ServeD.Launchers.Arguments
import ServeD.Lib.MaximalRuns
import ServeD.Lib.Loops

/-! # The tokeniser, access by access

`parse` of `utils.cc` as a machine: one step is one test or one assignment, and every access to the
line goes through its bytes, so that an access outside of them is a fault. The machine never faults
and leaves what `Arguments.parse` says (`ends_start`).

What it should leave are the maximal runs of characters that are not blank (`Yields`). It does so if
the line does not end in a blank; otherwise the last pointer is one to the end of the line
(`parse_iff`). -/

namespace ServeD.Launchers.Tokens

open ServeD.Launchers.Arguments ServeD.Lib.MaximalRuns ServeD.Lib.Loops

/-- Where `parse` is. -/
inductive Point where
  /-- `while (*line != '\0')` -/
  | outer
  /-- `while (*line == ' ' || …) *line++ = '\0';` -/
  | blanks
  /-- `*argv++ = line;` -/
  | store
  /-- `while (*line != '\0' && …) line++;` -/
  | word
  /-- `*argv = NULL;` -/
  | last
  | returned
  | fault
deriving Repr, DecidableEq

/-- The bytes of the line, the pointer into it, and what was written to `argv`; `none` is `NULL`. -/
structure Machine where
  memory : List Char
  line : ℕ
  argv : List (Option ℕ)
  point : Point
deriving Repr, DecidableEq

namespace Machine

/-- `*line` -/
def deref (m : Machine) : Option Char := m.memory[m.line]?

def stopped (m : Machine) : Bool := m.point == .returned || m.point == .fault

/-- One step. -/
def step (m : Machine) : Machine :=
  match m.point, m.deref with
  | .outer, some c => { m with point := if c ≠ '\x00' then .blanks else .last }
  | .blanks, some c =>
    if isBlank c then { m with memory := m.memory.set m.line '\x00', line := m.line + 1 }
    else { m with point := .store }
  | .store, _ => { m with argv := m.argv ++ [some m.line], point := .word }
  | .word, some c =>
    if c ≠ '\x00' ∧ isBlank c = false then { m with line := m.line + 1 }
      else { m with point := .outer }
  | .last, _ => { m with argv := m.argv ++ [none], point := .returned }
  | .returned, _ => m
  | _, _ => { m with point := .fault }

end Machine

/-- `parse(line, argv)` is called with the line at address 0, and nothing else can be accessed. -/
def start (line : CString) : Machine := ⟨line.chars ++ ['\x00'], 0, [], .outer⟩

/-! ### What should be left -/

/-- `argv` are the places of the maximal runs, in order, and `NULL`; each is a string in memory, and
ends there. -/
def Yields (line : List Char) (m : Machine) : Prop :=
  ∃ ps : List (ℕ × List Char), m.argv = ps.map (fun p => some p.1) ++ [none] ∧
    (ps.map Prod.fst).Pairwise (· < ·) ∧ (∀ i w, (i, w) ∈ ps ↔ IsRun isBlank line i w) ∧
    ∀ p ∈ ps, p.2 ++ ['\x00'] <+: m.memory.drop p.1

/-- The call returns without a fault, and leaves the words. -/
def Correct (line : CString) : Prop :=
  ∃ m, Ends Machine.stopped Machine.step (start line) m ∧ m.point = .returned ∧
    m.memory.length = (line.chars ++ ['\x00']).length ∧ Yields line.chars m

/-! ### Steps -/

section Steps

variable {pre cs : List Char} {argv : List (Option ℕ)} {c : Char} {t : Machine}

theorem deref_mid {point : Point} :
    (⟨pre ++ c :: cs, pre.length, argv, point⟩ : Machine).deref = some c := by
  unfold Machine.deref
  simp

theorem step_outer (hnul : c ≠ '\x00') :
    (⟨pre ++ c :: cs, pre.length, argv, .outer⟩ : Machine).step =
      ⟨pre ++ c :: cs, pre.length, argv, .blanks⟩ := by
  unfold Machine.step
  rw [deref_mid]
  simp [hnul]

/-- A blank is overwritten. -/
theorem step_blank (hc : isBlank c = true) :
    (⟨pre ++ c :: cs, pre.length, argv, .blanks⟩ : Machine).step =
      ⟨(pre ++ ['\x00']) ++ cs, (pre ++ ['\x00']).length, argv, .blanks⟩ := by
  unfold Machine.step
  rw [deref_mid]
  simp [hc]

theorem step_word (hc : isBlank c = false) (hnul : c ≠ '\x00') :
    (⟨pre ++ c :: cs, pre.length, argv, .word⟩ : Machine).step =
      ⟨(pre ++ [c]) ++ cs, (pre ++ [c]).length, argv, .word⟩ := by
  unfold Machine.step
  rw [deref_mid]
  simp [hc, hnul]

/-- The word ends at a blank or at the end of the line. -/
theorem step_word_end (hc : isBlank c = true ∨ c = '\x00') :
    (⟨pre ++ c :: cs, pre.length, argv, .word⟩ : Machine).step =
      ⟨pre ++ c :: cs, pre.length, argv, .outer⟩ := by
  unfold Machine.step
  rw [deref_mid]
  rcases hc with hc | rfl
  · simp [hc]
  · rfl

/-- A pointer is stored at any character that is not a blank, also at the end of the line. -/
theorem ends_store (hc : isBlank c = false)
    (h : Ends Machine.stopped Machine.step
      ⟨pre ++ c :: cs, pre.length, argv ++ [some pre.length], .word⟩ t) :
    Ends Machine.stopped Machine.step ⟨pre ++ c :: cs, pre.length, argv, .blanks⟩ t := by
  have hstep : (⟨pre ++ c :: cs, pre.length, argv, .blanks⟩ : Machine).step =
      ⟨pre ++ c :: cs, pre.length, argv, .store⟩ := by
    unfold Machine.step
    rw [deref_mid]
    simp [hc]
  refine (ends_step_iff rfl).mpr ?_
  rw [hstep]
  exact (ends_step_iff rfl).mpr h

/-- At the end of the line `NULL` is stored. -/
theorem ends_outer_nil :
    Ends Machine.stopped Machine.step ⟨pre ++ ['\x00'], pre.length, argv, .outer⟩
    ⟨pre ++ ['\x00'], pre.length, argv ++ [none], .returned⟩ := by
  have hstep : (⟨pre ++ ['\x00'], pre.length, argv, .outer⟩ : Machine).step =
      ⟨pre ++ ['\x00'], pre.length, argv, .last⟩ := by
    unfold Machine.step
    rw [deref_mid]
    rfl
  refine (ends_step_iff rfl).mpr ?_
  rw [hstep]
  exact (ends_step_iff rfl).mpr ((ends_finished_iff rfl).mpr rfl)

end Steps

/-! ### The machine and its result -/

/-- What `parseFrom` leaves behind the part `pre` of the line. -/
def left (pre cs : List Char) (argv : List (Option ℕ)) (inWord : Bool) : Machine :=
  ⟨pre ++ ((parseFrom pre.length inWord cs).1 ++ ['\x00']), pre.length + cs.length,
    argv ++ ((parseFrom pre.length inWord cs).2.map some ++ [none]), .returned⟩

section Left

variable {pre cs : List Char} {argv : List (Option ℕ)} {c : Char}

theorem left_blank (hc : isBlank c = true) (inWord : Bool) :
    left pre (c :: cs) argv inWord = left (pre ++ ['\x00']) cs argv false := by
  simp [left, parseFrom, hc, Nat.add_assoc, Nat.add_comm 1]

theorem left_word (hc : isBlank c = false) :
    left pre (c :: cs) argv true = left (pre ++ [c]) cs argv true := by
  simp [left, parseFrom, hc, Nat.add_assoc, Nat.add_comm 1]

theorem left_store (hc : isBlank c = false) :
    left pre (c :: cs) argv false = left (pre ++ [c]) cs (argv ++ [some pre.length]) true := by
  simp [left, parseFrom, hc, Nat.add_assoc, Nat.add_comm 1]

end Left

/-- **The loops**, from inside a word or from the blanks before one: the machine leaves what
`parseFrom` says, and faults nowhere. -/
theorem ends_left : ∀ (cs pre : List Char) (argv : List (Option ℕ)), '\x00' ∉ cs →
    Ends Machine.stopped Machine.step ⟨pre ++ (cs ++ ['\x00']), pre.length, argv, .word⟩
        (left pre cs argv true) ∧
      Ends Machine.stopped Machine.step ⟨pre ++ (cs ++ ['\x00']), pre.length, argv, .blanks⟩
        (left pre cs argv false)
  | [], pre, argv, _ => by
    have hword : ∀ argv : List (Option ℕ), Ends Machine.stopped Machine.step
        ⟨pre ++ ['\x00'], pre.length, argv, .word⟩
        ⟨pre ++ ['\x00'], pre.length, argv ++ [none], .returned⟩ := by
      intro argv
      refine (ends_step_iff rfl).mpr ?_
      rw [step_word_end (.inr rfl)]
      exact ends_outer_nil
    refine ⟨hword argv, ends_store (by decide) ?_⟩
    have h := hword (argv ++ [some pre.length])
    rwa [List.append_assoc] at h
  | c :: cs, pre, argv, h => by
    have hc : c ≠ '\x00' := fun he => h (by simp [he])
    have ih := fun d argv => ends_left cs (pre ++ [d]) argv fun hm => h (List.mem_cons_of_mem c hm)
    by_cases hb : isBlank c = true
    · have hblanks : Ends Machine.stopped Machine.step
          ⟨pre ++ c :: (cs ++ ['\x00']), pre.length, argv, .blanks⟩
          (left (pre ++ ['\x00']) cs argv false) := by
        refine (ends_step_iff rfl).mpr ?_
        rw [step_blank hb]
        exact (ih '\x00' argv).2
      rw [left_blank hb, left_blank hb]
      refine ⟨(ends_step_iff rfl).mpr ?_, hblanks⟩
      -- the word ends, and the outer loop goes on
      rw [List.cons_append, step_word_end (.inl hb)]
      refine (ends_step_iff rfl).mpr ?_
      rw [step_outer hc]
      exact hblanks
    · have hb' : isBlank c = false := by simpa using hb
      have hword : ∀ argv, Ends Machine.stopped Machine.step
          ⟨pre ++ c :: (cs ++ ['\x00']), pre.length, argv, .word⟩
          (left (pre ++ [c]) cs argv true) := by
        intro argv
        refine (ends_step_iff rfl).mpr ?_
        rw [step_word hb' hc]
        exact (ih c argv).1
      rw [left_word hb', left_store hb']
      exact ⟨hword argv, ends_store hb' (hword (argv ++ [some pre.length]))⟩

/-- What `parse` leaves. -/
def final (line : CString) : Machine :=
  ⟨(parse line.chars).1 ++ ['\x00'], line.chars.length, (parse line.chars).2.map some ++
    [none], .returned⟩

/-- **The machine runs as `parse` says**, from the first access to the last. -/
theorem ends_start (line : CString) :
    Ends Machine.stopped Machine.step (start line) (final line) := by
  obtain ⟨chars, hnul⟩ := line
  rcases chars with _ | ⟨c, cs⟩
  · exact @ends_outer_nil [] []
  · have hc : c ≠ '\x00' := fun he => hnul (by simp [he])
    have h := (ends_left (c :: cs) [] [] hnul).2
    unfold left at h
    rw [List.length_nil, Nat.zero_add] at h
    refine (ends_step_iff rfl).mpr ?_
    have hstep : (start ⟨c :: cs, hnul⟩).step = ⟨[] ++ (c :: cs ++ ['\x00']), 0, [], .blanks⟩ :=
      @step_outer [] _ _ _ hc
    rw [hstep]
    exact h

/-! ### The words -/

/-- A blank is overwritten, wherever it is. -/
theorem memory_parseFrom : ∀ (cs : List Char) (pos : ℕ) (inWord : Bool),
    (parseFrom pos inWord cs).1 = cs.map fun c => if isBlank c then '\x00' else c
  | [], _, _ => rfl
  | c :: cs, pos, inWord => by
    by_cases hc : isBlank c = true
    · simp [parseFrom, hc, memory_parseFrom cs]
    · simp [parseFrom, hc, memory_parseFrom cs]

/-- Whether the line ends in a blank, or is before a word if nothing is left of it. -/
def endsBlank (inWord : Bool) (cs : List Char) : Bool := (cs.getLast?.map isBlank).getD (!inWord)

/-- The pointers are the places where the runs start, and the end of the line if a
blank is before it. -/
theorem pointers_parseFrom : ∀ (cs : List Char) (pos : ℕ) (inWord : Bool),
    (parseFrom pos inWord cs).2 =
      starts isBlank pos inWord cs ++ if endsBlank inWord cs then [pos + cs.length] else []
  | [], pos, inWord => by cases inWord <;> rfl
  | c :: cs, pos, inWord => by
    have hlen : pos + (c :: cs).length = pos + 1 + cs.length := by
      rw [List.length_cons]
      omega
    have hlast : endsBlank inWord (c :: cs) = endsBlank (!isBlank c) cs := by
      unfold endsBlank
      rcases cs with _ | ⟨d, cs⟩
      · simp
      · rw [List.getLast?_cons_cons]
        rfl
    rw [hlast, hlen]
    by_cases hc : isBlank c = true
    · simp [parseFrom, starts, hc, pointers_parseFrom cs]
    · cases inWord <;> simp [parseFrom, starts, hc, pointers_parseFrom cs]

theorem endsBlank_iff {c : Char} {cs : List Char} :
    endsBlank false (c :: cs) = false ↔ ∀ d ∈ (c :: cs).getLast?, isBlank d = false := by
  unfold endsBlank
  rw [List.getLast?_cons]
  simp

/-- What is left in memory. -/
theorem memory_parse (line : List Char) :
    (parse line).1 = line.map fun c => if isBlank c then '\x00' else c := by
  rcases line with _ | ⟨c, cs⟩
  · rfl
  · exact memory_parseFrom (c :: cs) 0 false

/-- The last token ends with the line. -/
theorem pointers_parse {line : List Char} (h : ∀ d ∈ line.getLast?, isBlank d = false) :
    (parse line).2 = starts isBlank 0 false line := by
  rcases line with _ | ⟨c, cs⟩
  · rfl
  · show (parseFrom 0 false (c :: cs)).2 = _
    rw [pointers_parseFrom, endsBlank_iff.mpr h, if_neg Bool.false_ne_true, List.append_nil]

/-- The line ends with a blank. -/
theorem pointers_parse_blank {line : List Char} (h : ¬ ∀ d ∈ line.getLast?, isBlank d = false) :
    (parse line).2 = starts isBlank 0 false line ++ [line.length] := by
  rcases line with _ | ⟨c, cs⟩
  · exact absurd (fun d hd => by cases hd) h
  · show (parseFrom 0 false (c :: cs)).2 = _
    have hblank : endsBlank false (c :: cs) = true := by
      rw [← Bool.not_eq_false, endsBlank_iff]
      exact h
    rw [pointers_parseFrom, hblank, if_pos rfl, Nat.zero_add]

/-- A run is left as a string: what is behind it is a blank, or the end of the line. -/
theorem string_of_isRun {line w : List Char} {i : ℕ} (h : IsRun isBlank line i w) :
    w ++ ['\x00'] <+: ((parse line).1 ++ ['\x00']).drop i := by
  rw [memory_parse]
  obtain ⟨pre, post, rfl, rfl, -, hw, -, hpost⟩ := h
  have hkeep : w.map (fun c => if isBlank c then '\x00' else c) = w := by
    have hid : ∀ c ∈ w, (if isBlank c then '\x00' else c) = id c := fun c hc =>
      if_neg (by rw [hw c hc]; exact Bool.false_ne_true)
    rw [List.map_congr_left hid, List.map_id]
  have hdrop : ((pre ++ (w ++ post)).map (fun c => if isBlank c then '\x00' else c) ++
    ['\x00']).drop
      pre.length = w ++ (post.map (fun c => if isBlank c then '\x00' else c) ++ ['\x00']) := by
    rw [List.map_append, List.append_assoc, List.drop_left' (List.length_map _),
      List.map_append, hkeep, List.append_assoc]
  rw [hdrop]
  refine List.prefix_append_right_inj w |>.mpr ?_
  rcases post with _ | ⟨d, post⟩
  · exact List.prefix_rfl
  · have hd : isBlank d = true := hpost d (by simp)
    rw [List.map_cons, if_pos hd]
    exact ⟨_, rfl⟩

theorem yields_final (line : CString) (h : ∀ c ∈ line.chars.getLast?, isBlank c = false) :
    Yields line.chars (final line) := by
  have hargv : (parse line.chars).2 = starts isBlank 0 false line.chars := by
    rw [pointers_parse h]
  refine ⟨(starts isBlank 0 false line.chars).map fun i => (i, wordAt isBlank line.chars i), ?_, ?_,
    fun i w => ?_, fun p hp => ?_⟩
  · show (parse line.chars).2.map some ++ [none] = _
    rw [hargv, List.map_map]
    rfl
  · rw [List.map_map]
    show ((starts isBlank 0 false line.chars).map fun i => i).Pairwise (· < ·)
    rw [List.map_id']
    exact starts_sorted line.chars 0 false
  · rw [isRun_iff, List.mem_map]
    constructor
    · rintro ⟨j, hj, he⟩
      obtain ⟨rfl, rfl⟩ := Prod.ext_iff.mp he
      exact ⟨hj, rfl⟩
    · rintro ⟨hi, rfl⟩
      exact ⟨i, hi, rfl⟩
  · obtain ⟨i, hi, rfl⟩ := List.mem_map.mp hp
    exact string_of_isRun (isRun_iff.mpr ⟨hi, rfl⟩)

/-- A pointer to the end of the line is to no word. -/
theorem not_yields_final (line : CString) (h : ¬ ∀ c ∈ line.chars.getLast?, isBlank c = false) :
    ¬ Yields line.chars (final line) := by
  rintro ⟨ps, hargv, -, hruns, -⟩
  have hmem : some line.chars.length ∈ (final line).argv := by
    show some line.chars.length ∈ (parse line.chars).2.map some ++ [none]
    rw [pointers_parse_blank h]
    simp
  rw [hargv] at hmem
  rcases List.mem_append.mp hmem with hmem | hmem
  · obtain ⟨⟨i, w⟩, hp, hi⟩ := List.mem_map.mp hmem
    have hlt := ((hruns i w).mp hp).lt
    have hi' : i = line.chars.length := Option.some.inj hi
    omega
  · simp at hmem

/-- **The words of a line**, and when `parse` leaves them. The call always returns, without an
access outside of the line; it leaves the maximal runs of characters that are not blank exactly if
the line is empty or does not end in a blank. -/
theorem parse_iff (line : CString) :
    (∃ m, Ends Machine.stopped Machine.step (start line) m ∧ m.point = .returned) ∧
      (Correct line ↔ ∀ c ∈ line.chars.getLast?, isBlank c = false) := by
  refine ⟨⟨final line, ends_start line, rfl⟩, ?_, fun h => ?_⟩
  · rintro ⟨m, hends, -, -, hm⟩
    rw [hends.unique (ends_start line)] at hm
    by_contra h
    exact not_yields_final line h hm
  · refine ⟨final line, ends_start line, rfl, ?_, yields_final line h⟩
    show ((parse line.chars).1 ++ ['\x00']).length = _
    rw [memory_parse, List.length_append, List.length_map, List.length_append]

/-- `ls` and a blank behind it. -/
def lsBlank : CString := ⟨"ls ".toList, by decide⟩

/-- The pointers are to `ls` and to the empty string behind the blank. -/
theorem not_correct_lsBlank :
    loop Machine.stopped Machine.step 13 (start lsBlank) =
        some ⟨['l', 's', '\x00', '\x00'], 3, [some 0, some 3, none], .returned⟩ ∧
      ¬ Correct lsBlank := by
  have hrun : loop Machine.stopped Machine.step 13 (start lsBlank) =
      some ⟨['l', 's', '\x00', '\x00'], 3, [some 0, some 3, none], .returned⟩ := by decide
  refine ⟨hrun, ?_⟩
  rintro ⟨m, hends, -, -, hm⟩
  rw [hends.unique ⟨13, hrun⟩] at hm
  obtain ⟨ps, hargv, -, hruns, -⟩ := hm
  have hmem : some 3 ∈ ps.map (fun p => some p.1) ++ [none] := by
    rw [← hargv]
    decide
  rcases List.mem_append.mp hmem with hmem | hmem
  · -- a run at place 3 of a line of three characters
    obtain ⟨⟨i, w⟩, hp, hi⟩ := List.mem_map.mp hmem
    have hlt : i < 3 := ((hruns i w).mp hp).lt
    have hi' : i = 3 := Option.some.inj hi
    omega
  · simp at hmem

end ServeD.Launchers.Tokens
