import Mathlib.Data.List.TakeWhile
import Mathlib.Data.Nat.Notation

/-! # Maximal runs

The words of a line are its maximal runs of characters that are not blank (`IsRun`). A scan from the
left finds where they start (`starts`).

* `starts_sorted`, `lt_of_mem_starts`: the places are in order and in the line;
* `isRun_iff`: a run is known by its place, and is what can be read from there without a blank. -/

namespace ServeD.Lib.MaximalRuns

variable {α : Type*} (blank : α → Bool)

/-- `w` is a maximal run of `s`, from the place `i` on. -/
def IsRun (s : List α) (i : ℕ) (w : List α) : Prop :=
  ∃ pre post, s = pre ++ (w ++ post) ∧ pre.length = i ∧ w ≠ [] ∧ (∀ c ∈ w, blank c = false) ∧
    (∀ c ∈ pre.getLast?, blank c = true) ∧ ∀ c ∈ post.head?, blank c = true

/-- Where the runs of the rest start, inside a run or before one; `pos` is the place of the rest. -/
def starts : ℕ → Bool → List α → List ℕ
  | _, _, [] => []
  | pos, inWord, c :: s =>
    if blank c then starts (pos + 1) false s
    else if inWord then starts (pos + 1) true s
    else pos :: starts (pos + 1) true s

/-- What can be read without a blank. -/
def wordAt (s : List α) (i : ℕ) : List α := (s.drop i).takeWhile fun c => !blank c

variable {blank}

theorem IsRun.lt {s w : List α} {i : ℕ} (h : IsRun blank s i w) : i < s.length := by
  obtain ⟨pre, post, rfl, rfl, hne, -⟩ := h
  have := List.length_pos_iff.mpr hne
  rw [List.length_append, List.length_append]
  omega

theorem lt_of_mem_starts : ∀ {s : List α} {pos i : ℕ} {b : Bool}, i ∈ starts blank pos b s →
    pos ≤ i ∧ i < pos + s.length
  | [], _, _, _, h => by cases h
  | c :: s, pos, i, b, h => by
    rw [List.length_cons]
    unfold starts at h
    split_ifs at h
    · have := lt_of_mem_starts h
      omega
    · have := lt_of_mem_starts h
      omega
    · rcases List.mem_cons.mp h with rfl | h
      · omega
      · have := lt_of_mem_starts h
        omega

theorem starts_sorted : ∀ (s : List α) (pos : ℕ) (b : Bool), (starts blank pos b s).Pairwise (· < ·)
  | [], _, _ => .nil
  | c :: s, pos, b => by
    unfold starts
    split_ifs
    · exact starts_sorted s (pos + 1) false
    · exact starts_sorted s (pos + 1) true
    · refine List.pairwise_cons.mpr ⟨fun i hi => ?_, starts_sorted s (pos + 1) true⟩
      have := lt_of_mem_starts hi
      omega

/-- One character: a run may start at it, and the others are in the rest. -/
theorem mem_starts_cons {c : α} {s : List α} {pos i : ℕ} {b : Bool} :
    i ∈ starts blank pos b (c :: s) ↔
    (i = pos ∧ blank c = false ∧ b = false) ∨ i ∈ starts blank (pos + 1) (!blank c) s := by
  by_cases hc : blank c = true
  · simp [starts, hc]
  · have hc' : blank c = false := by simpa using hc
    rcases b with _ | _
    · simp [starts, hc']
    · simp [starts, hc']

/-- A run starts at a character that is not blank and has no such character before it. -/
theorem mem_starts {s : List α} {pos i : ℕ} {b : Bool} : i ∈ starts blank pos b s ↔
    ∃ p c q, s = p ++ c :: q ∧ i = pos + p.length ∧ blank c = false ∧ (p = [] → b = false) ∧
      ∀ d ∈ p.getLast?, blank d = true := by
  induction s generalizing pos b with
  | nil => simp [starts]
  | cons c s ih =>
    rw [mem_starts_cons, ih]
    constructor
    · rintro (⟨rfl, hc, hb⟩ | ⟨p, d, q, rfl, rfl, hd, hp, hlast⟩)
      · exact ⟨[], c, s, rfl, rfl, hc, fun _ => hb, fun d hd => nomatch hd⟩
      · refine ⟨c :: p, d, q, rfl, by rw [List.length_cons]; omega, hd, (fun h => nomatch h), ?_⟩
        rcases p with _ | ⟨x, p⟩
        · simpa using hp rfl
        · simpa using hlast
    · rintro ⟨p, d, q, hs, rfl, hd, hp, hlast⟩
      rcases p with _ | ⟨x, p⟩
      · obtain ⟨rfl, rfl⟩ := List.cons_eq_cons.mp hs
        exact .inl ⟨rfl, hd, hp rfl⟩
      · -- what is before the run has `c` in front
        obtain ⟨rfl, rfl⟩ := List.cons_eq_cons.mp hs
        refine .inr ⟨p, d, q, rfl, by rw [List.length_cons]; omega, hd, ?_, fun y hy => hlast y ?_⟩
        · rintro rfl
          simpa using hlast c (by simp)
        · rcases p with _ | ⟨z, p⟩
          · cases hy
          · simpa using hy

/-- **A run by its place.** -/
theorem isRun_iff {s w : List α} {i : ℕ} :
    IsRun blank s i w ↔ i ∈ starts blank 0 false s ∧ w = wordAt blank s i := by
  rw [mem_starts]
  constructor
  · rintro ⟨pre, post, rfl, rfl, hne, hw, hpre, hpost⟩
    obtain ⟨c, w, rfl⟩ := List.exists_cons_of_ne_nil hne
    refine ⟨⟨pre, c, w ++ post, rfl, (Nat.zero_add _).symm, hw c List.mem_cons_self, fun _ =>
      rfl, hpre⟩, ?_⟩
    unfold wordAt
    rw [List.drop_left, List.takeWhile_append_of_pos fun d hd => by rw [hw d hd]; rfl]
    rcases post with _ | ⟨d, post⟩
    · exact (List.append_nil _).symm
    · rw [List.takeWhile_cons_of_neg, List.append_nil]
      rw [hpost d (by simp)]
      exact Bool.false_ne_true
  · rintro ⟨⟨p, c, q, rfl, hi, hc, -, hlast⟩, rfl⟩
    obtain rfl : i = p.length := by omega
    unfold wordAt
    rw [List.drop_left]
    refine ⟨p, (c :: q).dropWhile fun c => !blank c, by rw [List.takeWhile_append_dropWhile], rfl,
      ?_, ?_, hlast, ?_⟩
    · rw [List.takeWhile_cons_of_pos (by rw [hc]; rfl)]
      exact List.cons_ne_nil _ _
    · intro d hd
      simpa using List.mem_takeWhile_imp hd
    · intro d hd
      have hnot := List.head?_dropWhile_not (fun c => !blank c) (c :: q)
      rw [Option.mem_def.mp hd] at hnot
      simpa using hnot

end ServeD.Lib.MaximalRuns
