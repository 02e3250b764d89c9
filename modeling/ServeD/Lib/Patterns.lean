import ServeD.Lib.Texts

/-! # Simple patterns

Regular expressions of `java.util.regex` whose only special character is the dot, behind `^.*?`: the
dot matches every character that does not end a line, and the text is cut after the first place
where the pattern matches. What other patterns do is not fixed (`Regex`).

* `cut_self`, `cut_skip`: a text that begins with the pattern is cut there, and what is before it is
  skipped if the pattern does not match earlier. -/

namespace ServeD.Lib.Patterns

open ServeD.Lib.Texts

/-- The line terminators. -/
def isLineEnd (c : Char) : Bool :=
  c == '\n' || c == '\r' || c == '\u0085' || c == '\u2028' || c == '\u2029'

/-- The characters with a meaning of their own, except the dot. -/
def special : List Char := ['\\', '^', '$', '|', '?', '*', '+', '(', ')', '[', '\x7b']

/-- The pattern consists of dots and of characters that stand for themselves. -/
def Simple (p : Text) : Prop := ∀ c ∈ p, c ∉ special

instance : DecidablePred Simple := fun p => List.decidableBAll (fun c => c ∉ special) p

def matchesChar (c d : Char) : Bool := c == d || (c == '.' && !isLineEnd d)

/-- What follows the pattern at the beginning of a text. -/
def matchHere : Text → Text → Option Text
  | [], s => some s
  | _ :: _, [] => none
  | c :: p, d :: s => if matchesChar c d then matchHere p s else none

/-- What follows the first match of `^.*?p`. -/
def cut (p : Text) : Text → Option Text
  | [] => matchHere p []
  | c :: s => (matchHere p (c :: s)).or (if isLineEnd c then none else cut p s)

/-- `s.replaceFirst("^.*?" + p, "")` for a simple pattern. -/
def cutFirst (p s : Text) : Text := (cut p s).getD s

/-- The regular expressions of the platform. -/
structure Regex where
  /-- `s.replaceFirst(pattern, "")`, or nothing if the pattern has a wrong syntax -/
  replaceFirst : Text → Text → Option Text
  simple : ∀ p s, Simple p → replaceFirst ("^.*?".toList ++ p) s = some (cutFirst p s)

section Cut

variable {p s r : Text}

theorem isLineEnd_of_isDigit {c : Char} (h : c.isDigit = true) : isLineEnd c = false := by
  rw [← Bool.not_eq_true]
  intro hend
  simp only [isLineEnd, Bool.or_eq_true, beq_iff_eq] at hend
  rcases hend with (((rfl | rfl) | rfl) | rfl) | rfl <;> cases h

theorem matchHere_self (p r : Text) : matchHere p (p ++ r) = some r := by
  induction p with
  | nil => rfl
  | cons c p ih => simp [matchHere, matchesChar, ih]

/-- A character that is not a dot stands in the text. -/
theorem getElem?_of_matchHere (h : matchHere p s = some r) {k : ℕ} {c : Char} (hk : p[k]? = some c)
    (hc : c ≠ '.') :
    s[k]? = some c := by
  induction p generalizing s k with
  | nil => cases hk
  | cons d p ih =>
    rcases s with _ | ⟨e, s⟩
    · cases h
    · rw [matchHere] at h
      split_ifs at h with hm
      rcases k with _ | k
      · obtain rfl : d = c := by simpa using hk
        have heq : d = e := by simpa [matchesChar, hc] using hm
        simp [heq]
      · simpa using ih h (by simpa using hk)

theorem cut_of_matchHere (h : matchHere p s = some r) : cut p s = some r := by
  rcases s with _ | ⟨c, s⟩
  · exact h
  · rw [cut, h]
    rfl

theorem cut_self (p r : Text) : cut p (p ++ r) = some r := cut_of_matchHere (matchHere_self p r)

theorem cutFirst_self (p r : Text) : cutFirst p (p ++ r) = r := by
  rw [cutFirst, cut_self, Option.getD_some]

/-- Nothing is cut if the pattern matches nowhere. -/
theorem cutFirst_eq (h : ∀ t, t <:+ s → matchHere p t = none) : cutFirst p s = s := by
  have hcut : cut p s = none := by
    induction s with
    | nil => exact h [] List.suffix_rfl
    | cons c s ih =>
      rw [cut, h (c :: s) List.suffix_rfl, Option.none_or, ih fun t ht =>
        h t (ht.trans (List.suffix_cons c s)), ite_self]
  rw [cutFirst, hcut, Option.getD_none]

/-- What is before the pattern is skipped. -/
theorem cut_skip {b : Text} (hline : ∀ c ∈ b, isLineEnd c = false)
    (h : ∀ t, t <:+ b → t ≠ [] → matchHere p (t ++ s) = none) : cut p (b ++ s) = cut p s := by
  induction b with
  | nil => rfl
  | cons c b ih =>
    have hb := ih (fun d hd => hline d (List.mem_cons_of_mem c hd)) fun t ht =>
      h t (ht.trans (List.suffix_cons c b))
    have hc := h (c :: b) List.suffix_rfl (List.cons_ne_nil c b)
    rw [List.cons_append] at hc ⊢
    rw [cut, hc, Option.none_or, hline c List.mem_cons_self, hb]
    rfl

/-- A pattern with a character that is not before it does not match earlier: the character would
stand in the pattern ever further to the front. -/
theorem matchHere_before {b t : Text} {z : Char} (hz : z ∈ p) (hdot : z ≠ '.') (hb : z ∉ b)
    (ht : t <:+ b) (hne : t ≠ []) : matchHere p (t ++ (p ++ s)) = none := by
  rw [← Option.not_isSome_iff_eq_none]
  intro hsome
  obtain ⟨r, hr⟩ := Option.isSome_iff_exists.mp hsome
  have hno : ∀ k : ℕ, p[k]? ≠ some z := by
    intro k
    induction k using Nat.strongRecOn with
    | ind k ih =>
      intro hk
      have hlt : k < p.length := (List.getElem?_eq_some_iff.mp hk).1
      have hpos := List.length_pos_of_ne_nil hne
      have htext := getElem?_of_matchHere hr hk hdot
      rcases Nat.lt_or_ge k t.length with hin | hout
      · rw [List.getElem?_append_left hin] at htext
        exact hb (ht.subset (List.mem_of_getElem? htext))
      · rw [List.getElem?_append_right hout, List.getElem?_append_left (by omega)] at htext
        exact ih (k - t.length) (by omega) htext
  obtain ⟨k, hk⟩ := List.mem_iff_getElem?.mp hz
  exact hno k hk

end Cut

end ServeD.Lib.Patterns
