import ServeD.Lib.Patterns

/-! # Regular expressions with anchors and look-ahead

The part of `java.util.regex` that a validation uses: classes of characters, `^` and `$`,
look-ahead, sequences and repetitions. `rests whole r s` is everything that can be left of `s`, a
rest of the text `whole`, after a match of `r` at its beginning; the matcher takes one of the ways,
so a text matches if one of them leaves nothing.

* `mem_rests_seq` and its like: what can be left, for each form of an expression;
* `mem_rests_chars`: a repeated class takes a block of its characters;
* `mem_rests_plus`: a repetition that takes characters in each round is a finite number of rounds.
  -/

namespace ServeD.Lib.Regexes

open ServeD.Lib.Texts ServeD.Lib.Patterns

inductive Regex where
  | char (p : Char → Bool)
  /-- `^` -/
  | start
  /-- `$` -/
  | stop
  /-- `(?=r)` -/
  | ahead (r : Regex)
  /-- `(?!r)` -/
  | notAhead (r : Regex)
  | seq (r q : Regex)
  /-- `r{lo,hi}` -/
  | rep (r : Regex) (lo : ℕ) (hi : Option ℕ)

/-- The end of the text, or of its last line: `$` without `MULTILINE`. -/
def isStop (whole : Text) : Text → Bool
  | [] => true
  | [c] => isLineEnd c && !(c == '\n' && whole.dropLast.getLast? == some '\r')
  | [c, d] => c == '\r' && d == '\n'
  | _ => false

/-- What can be left after `k` rounds. -/
def rounds (f : Text → List Text) : ℕ → Text → List Text
  | 0, s => [s]
  | k + 1, s => (f s).flatMap (rounds f k)

/-- What can be left of `s`. More rounds than characters change nothing,
so a repetition without a bound has one. -/
def rests (whole : Text) : Regex → Text → List Text
  | .char _, [] => []
  | .char p, c :: s => if p c then [s] else []
  | .start, s => if s.length = whole.length then [s] else []
  | .stop, s => if isStop whole s then [s] else []
  | .ahead r, s => if (rests whole r s).isEmpty then [] else [s]
  | .notAhead r, s => if (rests whole r s).isEmpty then [s] else []
  | .seq r q, s => (rests whole r s).flatMap (rests whole q)
  | .rep r lo hi, s =>
    (List.range' lo (hi.getD (lo + s.length) + 1 - lo)).flatMap fun k => rounds (rests whole r) k s

/-- `s.matches(r)`. -/
def matchesAll (r : Regex) (s : Text) : Bool := (rests s r s).contains []

section Rests

variable {whole s t : Text} {r q : Regex} {p : Char → Bool} {lo hi k : ℕ}

theorem mem_rests_char : t ∈ rests whole (.char p) s ↔ ∃ c, p c = true ∧ s = c :: t := by
  rcases s with _ | ⟨c, s⟩
  · simp [rests]
  · rw [rests]
    split_ifs with hp
    · constructor
      · intro h
        exact ⟨c, hp, by rw [List.mem_singleton.mp h]⟩
      · rintro ⟨d, -, h⟩
        rw [(List.cons.inj h).2]
        exact List.mem_singleton_self t
    · simp only [List.not_mem_nil, false_iff]
      rintro ⟨d, hd, h⟩
      exact hp ((List.cons.inj h).1 ▸ hd)

theorem mem_rests_start : t ∈ rests whole .start s ↔ t = s ∧ s.length = whole.length := by
  show t ∈ (if s.length = whole.length then [s] else []) ↔ _
  split_ifs with h <;> simp [h]

theorem mem_rests_stop : t ∈ rests whole .stop s ↔ t = s ∧ isStop whole s = true := by
  show t ∈ (if isStop whole s then [s] else []) ↔ _
  split_ifs with h <;> simp [h]

theorem mem_rests_ahead : t ∈ rests whole (.ahead r) s ↔ t = s ∧ ∃ u, u ∈ rests whole r s := by
  show t ∈ (if (rests whole r s).isEmpty then [] else [s]) ↔ _
  split_ifs with h
  · have hnone : ¬ ∃ u, u ∈ rests whole r s := fun ⟨u, hu⟩ => by simp [List.isEmpty_iff.mp h] at hu
    simp [hnone]
  · have hsome := List.exists_mem_of_ne_nil _ (mt List.isEmpty_iff.mpr h)
    simp [hsome]

theorem mem_rests_notAhead : t ∈ rests whole (.notAhead r) s ↔
    t = s ∧ ¬ ∃ u, u ∈ rests whole r s := by
  show t ∈ (if (rests whole r s).isEmpty then [s] else []) ↔ _
  split_ifs with h
  · have hnone : ¬ ∃ u, u ∈ rests whole r s := fun ⟨u, hu⟩ => by simp [List.isEmpty_iff.mp h] at hu
    simp [hnone]
  · have hsome := List.exists_mem_of_ne_nil _ (mt List.isEmpty_iff.mpr h)
    simp [hsome]

theorem mem_rests_seq : t ∈ rests whole (.seq r q) s ↔
    ∃ u, u ∈ rests whole r s ∧ t ∈ rests whole q u := by
  show t ∈ (rests whole r s).flatMap (rests whole q) ↔ _
  rw [List.mem_flatMap]

theorem mem_rests_rep : t ∈ rests whole (.rep r lo (some hi)) s ↔
    ∃ k, lo ≤ k ∧ k ≤ hi ∧ t ∈ rounds (rests whole r) k s := by
  show t ∈ (List.range' lo (hi + 1 - lo)).flatMap (rounds (rests whole r) · s) ↔ _
  simp only [List.mem_flatMap, List.mem_range'_1]
  constructor
  · rintro ⟨k, ⟨hlo, hhi⟩, h⟩
    exact ⟨k, hlo, by omega, h⟩
  · rintro ⟨k, hlo, hhi, h⟩
    exact ⟨k, ⟨hlo, by omega⟩, h⟩

theorem mem_rounds_zero {f : Text → List Text} : t ∈ rounds f 0 s ↔ t = s := List.mem_singleton

theorem mem_rounds_succ {f : Text → List Text} : t ∈ rounds f (k + 1) s ↔
    ∃ u, u ∈ f s ∧ t ∈ rounds f k u := by
  rw [rounds, List.mem_flatMap]

/-- As many rounds as characters suffice if each of them takes one. -/
theorem length_of_mem_rounds {f : Text → List Text} (hf : ∀ s u, u ∈ f s → u.length < s.length) :
    ∀ {k : ℕ} {s : Text}, t ∈ rounds f k s → k + t.length ≤ s.length
  | 0, s, h => by
    rw [mem_rounds_zero.mp h]
    omega
  | k + 1, s, h => by
    obtain ⟨u, hu, ht⟩ := mem_rounds_succ.mp h
    have hlt := hf s u hu
    have hle := length_of_mem_rounds hf ht
    omega

/-- **A repetition without a bound**, of what takes characters in each round. -/
theorem mem_rests_plus (hr : ∀ s u, u ∈ rests whole r s → u.length < s.length) :
    t ∈ rests whole (.rep r lo none) s ↔ ∃ k, lo ≤ k ∧ t ∈ rounds (rests whole r) k s := by
  show t ∈ (List.range' lo (lo + s.length + 1 - lo)).flatMap (rounds (rests whole r) · s) ↔ _
  simp only [List.mem_flatMap, List.mem_range'_1]
  constructor
  · rintro ⟨k, ⟨hlo, -⟩, h⟩
    exact ⟨k, hlo, h⟩
  · rintro ⟨k, hlo, h⟩
    have hle := length_of_mem_rounds hr h
    exact ⟨k, ⟨hlo, by omega⟩, h⟩

/-! ### Blocks of characters -/

theorem mem_rounds_char : ∀ {k : ℕ} {s : Text}, t ∈ rounds (rests whole (.char p)) k s ↔
    ∃ b, s = b ++ t ∧ b.length = k ∧ ∀ c ∈ b, p c = true
  | 0, s => by
    rw [mem_rounds_zero]
    constructor
    · rintro rfl
      exact ⟨[], rfl, rfl, by simp⟩
    · rintro ⟨b, rfl, hb, -⟩
      rw [List.length_eq_zero_iff.mp hb, List.nil_append]
  | k + 1, s => by
    rw [mem_rounds_succ]
    constructor
    · rintro ⟨u, hu, ht⟩
      obtain ⟨c, hc, rfl⟩ := mem_rests_char.mp hu
      obtain ⟨b, rfl, rfl, hb⟩ := mem_rounds_char.mp ht
      exact ⟨c :: b, rfl, rfl, List.forall_mem_cons.mpr ⟨hc, hb⟩⟩
    · rintro ⟨b, rfl, hlen, hb⟩
      obtain ⟨c, b, rfl⟩ := List.exists_cons_of_length_eq_add_one hlen
      obtain ⟨hc, hb⟩ := List.forall_mem_cons.mp hb
      exact ⟨b ++ t, mem_rests_char.mpr ⟨c, hc, rfl⟩,
        mem_rounds_char.mpr ⟨b, rfl, by simpa using hlen, hb⟩⟩

theorem length_of_mem_rests_char {u : Text} (h : u ∈ rests whole (.char p) s) :
    u.length < s.length := by
  obtain ⟨c, -, rfl⟩ := mem_rests_char.mp h
  simp

/-- **A repeated class** takes a block of its characters. -/
theorem mem_rests_chars {hi : Option ℕ} : t ∈ rests whole (.rep (.char p) lo hi) s ↔
    ∃ b, s = b ++ t ∧ lo ≤ b.length ∧ (∀ n ∈ hi, b.length ≤ n) ∧ ∀ c ∈ b, p c = true := by
  rcases hi with _ | n
  · rw [mem_rests_plus fun s u hu => length_of_mem_rests_char hu]
    constructor
    · rintro ⟨k, hlo, h⟩
      obtain ⟨b, rfl, rfl, hb⟩ := mem_rounds_char.mp h
      exact ⟨b, rfl, hlo, by simp, hb⟩
    · rintro ⟨b, rfl, hlo, -, hb⟩
      exact ⟨b.length, hlo, mem_rounds_char.mpr ⟨b, rfl, rfl, hb⟩⟩
  · rw [mem_rests_rep]
    constructor
    · rintro ⟨k, hlo, hhi, h⟩
      obtain ⟨b, rfl, rfl, hb⟩ := mem_rounds_char.mp h
      exact ⟨b, rfl, hlo, by simpa using hhi, hb⟩
    · rintro ⟨b, rfl, hlo, hhi, hb⟩
      exact ⟨b.length, hlo, hhi n rfl, mem_rounds_char.mpr ⟨b, rfl, rfl, hb⟩⟩

end Rests

end ServeD.Lib.Regexes
