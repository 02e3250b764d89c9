import ServeD.Lib.Replacing

/-! # Cutting at occurrences

A list is cut where a delimiter occurs, at the leftmost occurrence first and then behind it, so that
occurrences that overlap count once.

* `intercalate_cut`: the pieces, with the delimiter between them, are the list;
* `not_infix_of_mem_cut`: there is no delimiter in a piece;
* `length_cut`: there is one piece more than occurrences;
* `cut_eq_search`: the first piece ends where a search finds the delimiter. -/

namespace ServeD.Lib.Cutting

open ServeD.Lib.Replacing

variable {α : Type*} [DecidableEq α]

/-- The pieces of the rest, with some elements to be skipped first. -/
def cutFrom (d : List α) : ℕ → List α → List (List α)
  | _, [] => [[]]
  | k + 1, _ :: s => cutFrom d k s
  | 0, c :: s =>
    if d <+: c :: s then [] :: cutFrom d (d.length - 1) s
    else (cutFrom d 0 s).modifyHead (c :: ·)

/-- The pieces. -/
def cut (d s : List α) : List (List α) := cutFrom d 0 s

/-- The number of occurrences in the rest, with some elements to be skipped first. -/
def occurrencesFrom (d : List α) : ℕ → List α → ℕ
  | _, [] => 0
  | k + 1, _ :: s => occurrencesFrom d k s
  | 0, c :: s =>
    if d <+: c :: s then occurrencesFrom d (d.length - 1) s + 1 else occurrencesFrom d 0 s

/-- The number of leftmost occurrences that do not overlap. -/
def occurrences (d s : List α) : ℕ := occurrencesFrom d 0 s

/-- How far from the beginning the first occurrence is; the length of the list if there is none. -/
def search (d : List α) : List α → ℕ
  | [] => 0
  | c :: s => if d <+: c :: s then 0 else search d s + 1

/-! ### Equations -/

section Equations

variable {d s : List α} {c : α}

theorem cutFrom_eq (k : ℕ) (s : List α) : cutFrom d k s = cut d (s.drop k) := by
  induction s generalizing k with
  | nil => cases k <;> rfl
  | cons c s ih =>
    cases k with
    | zero => rfl
    | succ k => exact ih k

theorem occurrencesFrom_eq (k : ℕ) (s : List α) :
    occurrencesFrom d k s = occurrences d (s.drop k) := by
  induction s generalizing k with
  | nil => cases k <;> rfl
  | cons c s ih =>
    cases k with
    | zero => rfl
    | succ k => exact ih k

@[simp] theorem cut_nil : cut d [] = [[]] := rfl

theorem cut_cons (h : ¬ d <+: c :: s) : cut d (c :: s) = (cut d s).modifyHead (c :: ·) := by
  rw [cut, cutFrom, if_neg h, cut]

theorem cut_delim (hd : d ≠ []) (s : List α) : cut d (d ++ s) = [] :: cut d s := by
  obtain ⟨c, t, rfl⟩ := List.exists_cons_of_ne_nil hd
  have hpre : c :: t <+: c :: (t ++ s) := List.prefix_append (c :: t) s
  rw [List.cons_append, cut, cutFrom, if_pos hpre, cutFrom_eq]
  simp

@[simp] theorem occurrences_nil : occurrences d [] = 0 := rfl

theorem occurrences_cons (h : ¬ d <+: c :: s) : occurrences d (c :: s) = occurrences d s := by
  rw [occurrences, occurrencesFrom, if_neg h, occurrences]

theorem occurrences_delim (hd : d ≠ []) (s : List α) :
    occurrences d (d ++ s) = occurrences d s + 1 := by
  obtain ⟨c, t, rfl⟩ := List.exists_cons_of_ne_nil hd
  have hpre : c :: t <+: c :: (t ++ s) := List.prefix_append (c :: t) s
  rw [List.cons_append, occurrences, occurrencesFrom, if_pos hpre, occurrencesFrom_eq]
  simp

end Equations

/-! ### The pieces -/

section Pieces

variable {d : List α} (hd : d ≠ [])
include hd

/-- There is a first piece, and it is a beginning of the list. -/
theorem cut_head (s : List α) : ∃ p ps, cut d s = p :: ps ∧ p <+: s := by
  induction s using replace_induction hd with
  | nil => exact ⟨[], [], rfl, List.prefix_rfl⟩
  | found s _ => exact ⟨[], cut d s, cut_delim hd s, List.nil_prefix⟩
  | char c s h ih =>
    obtain ⟨p, ps, hcut, hp⟩ := ih
    refine ⟨c :: p, ps, ?_, List.cons_prefix_cons.mpr ⟨rfl, hp⟩⟩
    rw [cut_cons h, hcut, List.modifyHead_cons]

theorem intercalate_cut (s : List α) : d.intercalate (cut d s) = s := by
  induction s using replace_induction hd with
  | nil => exact List.intercalate_singleton
  | found s ih =>
    obtain ⟨p, ps, hcut, -⟩ := cut_head hd s
    rw [cut_delim hd, hcut, List.intercalate_cons_cons, ← hcut, ih, List.nil_append]
  | char c s h ih =>
    obtain ⟨p, ps, hcut, -⟩ := cut_head hd s
    rw [cut_cons h]
    rw [hcut] at ih ⊢
    rw [List.modifyHead_cons, List.intercalate_cons_cons_left, ih]

theorem not_infix_of_mem_cut (s : List α) : ∀ p ∈ cut d s, ¬ d <:+: p := by
  have hnil : ¬ d <:+: [] := fun h => hd (List.infix_nil.mp h)
  induction s using replace_induction hd with
  | nil =>
    intro p hp
    rw [cut_nil, List.mem_singleton] at hp
    rwa [hp]
  | found s ih =>
    intro p hp
    rw [cut_delim hd] at hp
    rcases List.mem_cons.mp hp with rfl | hp
    · exact hnil
    · exact ih p hp
  | char c s h ih =>
    obtain ⟨p₁, ps, hcut, hpre⟩ := cut_head hd s
    intro p hp
    rw [cut_cons h, hcut, List.modifyHead_cons] at hp
    rw [hcut] at ih
    rcases List.mem_cons.mp hp with rfl | hp
    · -- an occurrence at the front of the piece would be one at the front of the list
      intro hinfix
      rcases List.infix_cons_iff.mp hinfix with hfront | hinfix
      · exact h (hfront.trans (List.cons_prefix_cons.mpr ⟨rfl, hpre⟩))
      · exact ih p₁ List.mem_cons_self hinfix
    · exact ih p (List.mem_cons_of_mem p₁ hp)

theorem length_cut (s : List α) : (cut d s).length = occurrences d s + 1 := by
  induction s using replace_induction hd with
  | nil => rfl
  | found s ih => rw [cut_delim hd, List.length_cons, ih, occurrences_delim hd]
  | char c s h ih => rw [cut_cons h, List.length_modifyHead, ih, occurrences_cons h]

end Pieces

/-! ### Searching -/

section Searching

variable {d : List α}

theorem search_le : ∀ s : List α, search d s ≤ s.length
  | [] => Nat.le_refl 0
  | c :: s => by
    unfold search
    split_ifs
    · exact Nat.zero_le _
    · have := search_le s
      rw [List.length_cons]
      omega

/-- The delimiter is where it is found. -/
theorem prefix_drop_search : ∀ {s : List α}, search d s < s.length → d <+: s.drop (search d s)
  | [], h => absurd h (Nat.not_lt_zero _)
  | c :: s, h => by
    unfold search at h ⊢
    split_ifs at h ⊢ with hpre
    · exact hpre
    · rw [List.length_cons] at h
      exact prefix_drop_search (s := s) (by omega)

/-- Behind the delimiter there is still a place in the list, perhaps its end. -/
theorem search_add_le {s : List α} (h : search d s < s.length) :
    search d s + d.length ≤ s.length := by
  have hlen := (prefix_drop_search h).length_le
  rw [List.length_drop] at hlen
  omega

/-- **The first piece** ends where the delimiter is found,
and the others are those of what is behind. -/
theorem cut_eq_search (hd : d ≠ []) : ∀ s : List α,
    cut d s = s.take (search d s) ::
      if search d s = s.length then [] else cut d (s.drop (search d s + d.length))
  | [] => rfl
  | c :: s => by
    have hlen : (c :: s).length = s.length + 1 := List.length_cons
    by_cases hpre : d <+: c :: s
    · have hzero : search d (c :: s) = 0 := if_pos hpre
      rw [hzero, if_neg (by omega), List.take_zero, Nat.zero_add]
      obtain ⟨t, ht⟩ := hpre
      rw [← ht, cut_delim hd, List.drop_left]
    · have hsucc : search d (c :: s) = search d s + 1 := if_neg hpre
      rw [cut_cons hpre, cut_eq_search hd s, hsucc, hlen, List.modifyHead_cons, List.take_succ_cons]
      congr 1
      by_cases hend : search d s = s.length
      · rw [if_pos hend, if_pos (by omega)]
      · rw [if_neg hend, if_neg (by omega), Nat.succ_add, List.drop_succ_cons]

end Searching

end ServeD.Lib.Cutting
