import Mathlib.Data.List.Basic

/-! # Words of a line

A line is cut into words at blanks: leading blanks are skipped, several blanks count as one, and
blanks at the end leave an empty word behind.

* `words_join`: a list of words, joined by single blanks, is cut into the same list exactly when no
  word has a blank in it, none but the last is empty, and the list is not the empty word alone. -/

namespace ServeD.Lib.Words

variable {α : Type*} (blank : α → Bool)

/-- A character in front of the first word. -/
def consHead (c : α) : List (List α) → List (List α)
  | [] => [[c]]
  | w :: ws => (c :: w) :: ws

/-- The words from here on, inside a word or before one. -/
def scan : Bool → List α → List (List α)
  | _, [] => [[]]
  | inWord, c :: cs =>
    if blank c then
      if inWord then [] :: scan false cs else scan false cs
    else consHead c (scan true cs)

/-- The words of a line; an empty line has none. -/
def words : List α → List (List α)
  | [] => []
  | c :: cs => scan blank false (c :: cs)

/-- The words with a separator between them. -/
def join (sep : α) : List (List α) → List α
  | [] => []
  | [w] => w
  | w :: v :: ws => w ++ sep :: join sep (v :: ws)

variable {blank} {sep : α}

theorem scan_ne_nil : ∀ (b : Bool) (l : List α), scan blank b l ≠ []
  | _, [] => by simp [scan]
  | b, c :: cs => by
    unfold scan
    split_ifs
    · simp
    · exact scan_ne_nil false cs
    · rcases scan blank true cs with _ | ⟨w, ws⟩
      · simp [consHead]
      · simp [consHead]

/-! ### Words that are found -/

theorem mem_consHead {c : α} {w : List α} : ∀ {l : List (List α)}, w ∈ consHead c l →
    (∃ v ∈ l, w = c :: v) ∨ w ∈ l ∨ w = [c]
  | [], h => .inr (.inr (List.mem_singleton.mp h))
  | v :: l, h => by
    rcases List.mem_cons.mp h with h | h
    · exact .inl ⟨v, by simp, h⟩
    · exact .inr (.inl (List.mem_cons_of_mem v h))

/-- There is no blank in a word. -/
theorem not_blank_of_mem_scan : ∀ {b : Bool} {l w : List α}, w ∈ scan blank b l →
    ∀ c ∈ w, blank c = false
  | _, [], w, h, c, hc => by
    rw [scan, List.mem_singleton] at h
    rw [h] at hc; cases hc
  | b, d :: cs, w, h, c, hc => by
    unfold scan at h
    split_ifs at h with hd hb
    · rcases List.mem_cons.mp h with h | h
      · rw [h] at hc; cases hc
      · exact not_blank_of_mem_scan h c hc
    · exact not_blank_of_mem_scan h c hc
    · have hd' : blank d = false := by simpa using hd
      rcases mem_consHead h with ⟨v, hv, rfl⟩ | h | rfl
      · rcases List.mem_cons.mp hc with rfl | hc
        · exact hd'
        · exact not_blank_of_mem_scan hv c hc
      · exact not_blank_of_mem_scan h c hc
      · rw [List.mem_singleton.mp hc]; exact hd'

/-- Only the last word, and a word that was begun before, can be empty. -/
theorem ne_nil_of_mem_scan : ∀ {b : Bool} {l : List α},
    (∀ w ∈ (scan blank b l).tail.dropLast, w ≠ []) ∧
      (b = false → ∀ w ∈ (scan blank b l).dropLast, w ≠ [])
  | _, [] => by simp [scan]
  | b, c :: cs => by
    unfold scan
    have ihf := ne_nil_of_mem_scan (b := false) (l := cs)
    have iht := ne_nil_of_mem_scan (b := true) (l := cs)
    split_ifs with hc hb
    · exact ⟨ihf.2 rfl, fun h => by rw [h] at hb; cases hb⟩
    · exact ⟨ihf.1, fun _ => ihf.2 rfl⟩
    · rcases hs : scan blank true cs with _ | ⟨w, ws⟩
      · exact absurd hs (scan_ne_nil true cs)
      · rw [hs] at iht
        refine ⟨iht.1, fun _ v hv => ?_⟩
        rcases ws with _ | ⟨w', ws⟩
        · simp [consHead] at hv
        · rw [consHead, List.dropLast_cons_cons] at hv
          rcases List.mem_cons.mp hv with rfl | hv
          · simp
          · exact iht.1 v hv

/-! ### Words that are joined -/

/-- The rest of a word, up to a blank. -/
theorem scan_word (hsep : blank sep = true) (rest : List α) : ∀ {w : List α},
    (∀ c ∈ w, blank c = false) → scan blank true (w ++ sep :: rest) = w :: scan blank false rest
  | [], _ => by simp [scan, hsep]
  | c :: w, h => by
    have hc : blank c = false := h c (by simp)
    have ih := scan_word hsep rest fun d hd => h d (List.mem_cons_of_mem c hd)
    rw [List.cons_append, scan, hc, ih]
    rfl

/-- The last word. -/
theorem scan_last : ∀ {b : Bool} {w : List α}, (∀ c ∈ w, blank c = false) → scan blank b w = [w]
  | _, [], _ => rfl
  | b, c :: w, h => by
    have hc : blank c = false := h c (by simp)
    have ih := scan_last (b := true) fun d hd => h d (List.mem_cons_of_mem c hd)
    rw [scan, hc, ih]
    rfl

theorem scan_join (hsep : blank sep = true) : ∀ {ws : List (List α)}, ws ≠ [] →
    (∀ w ∈ ws, ∀ c ∈ w, blank c = false) → (∀ w ∈ ws.dropLast, w ≠ []) →
    scan blank false (join sep ws) = ws
  | [w], _, hb, _ => scan_last (hb w (by simp))
  | w :: v :: ws, _, hb, hne => by
    rw [List.dropLast_cons_cons] at hne
    have hvs : v :: ws ≠ [] := by simp
    have ih := scan_join hsep hvs (fun u hu => hb u (List.mem_cons_of_mem w hu))
      fun u hu => hne u (List.mem_cons_of_mem w hu)
    rcases w with _ | ⟨c, w⟩
    · exact absurd rfl (hne [] (by simp))
    · have hw : ∀ d ∈ c :: w, blank d = false := hb (c :: w) (by simp)
      have hc : blank c = false := hw c (by simp)
      rw [join, List.cons_append, scan, hc,
        scan_word hsep (join sep (v :: ws)) fun d hd => hw d (List.mem_cons_of_mem c hd), ih]
      rfl

/-- **Joining and cutting.** -/
theorem words_join (hsep : blank sep = true) (ws : List (List α)) :
    words blank (join sep ws) = ws ↔
      (∀ w ∈ ws, ∀ c ∈ w, blank c = false) ∧ (∀ w ∈ ws.dropLast, w ≠ []) ∧ ws ≠ [[]] := by
  constructor
  · intro h
    rcases hj : join sep ws with _ | ⟨c, cs⟩
    · rw [hj, words] at h
      subst h
      simp
    · rw [hj, words] at h
      refine ⟨fun w hw => ?_, ?_, ?_⟩
      · rw [← h] at hw; exact not_blank_of_mem_scan hw
      · rw [← h]; exact ne_nil_of_mem_scan.2 rfl
      · rintro rfl; simp [join] at hj
  · rintro ⟨hb, hne, hone⟩
    rcases ws with _ | ⟨w, ws⟩
    · rfl
    have hs := scan_join hsep (by simp) hb hne
    rcases hj : join sep (w :: ws) with _ | ⟨c, cs⟩
    · -- only the empty word alone makes an empty line
      rcases ws with _ | ⟨v, ws⟩
      · rw [join] at hj; exact absurd (by rw [hj]) hone
      · simp [join] at hj
    · rw [words, ← hj]; exact hs

end ServeD.Lib.Words
