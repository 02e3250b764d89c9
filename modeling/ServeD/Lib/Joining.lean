import Mathlib.Data.List.Basic

/-! # Joining lists with one separator

`glue s a b` puts exactly one separator `s` between two nonempty lists, whether or not the first
ends with one and the second starts with one; the empty list is neutral. A list whose only element
is the separator is the one case in which taking off the last and the first separator are not the
same in either order, so it is treated apart.

A `Grouping` is a way to put parentheses into a chain of operands. Under an associative operation
with a neutral element its value depends on the operands only. -/

namespace ServeD.Lib.Joining

section Glue

variable {α : Type} [DecidableEq α]

/-- The list without one separator at its end, if there is one. -/
def withoutLast (s : α) (a : List α) : List α := if a.getLast? = some s then a.dropLast else a

/-- The list without one separator at its start, if there is one. -/
def withoutFirst (s : α) (b : List α) : List α := if b.head? = some s then b.tail else b

/-- Both lists with one separator between them. -/
def glue (s : α) (a b : List α) : List α :=
  if a = [] then b else if b = [] then a else withoutLast s a ++ s :: withoutFirst s b

variable {s : α} {a b c : List α}

theorem glue_nil_left : glue s [] b = b := if_pos rfl

theorem glue_nil_right : glue s a [] = a := by
  unfold glue
  rcases eq_or_ne a [] with h | h
  · rw [if_pos h, h]
  · rw [if_neg h, if_pos rfl]

theorem glue_of_ne (ha : a ≠ []) (hb : b ≠ []) :
    glue s a b = withoutLast s a ++ s :: withoutFirst s b := by
  unfold glue
  rw [if_neg ha, if_neg hb]

theorem glue_ne_nil (ha : a ≠ []) (hb : b ≠ []) : glue s a b ≠ [] := by
  rw [glue_of_ne ha hb]
  simp

theorem withoutLast_append (hb : b ≠ []) : withoutLast s (a ++ b) = a ++ withoutLast s b := by
  unfold withoutLast
  rw [List.getLast?_append_of_ne_nil a hb, List.dropLast_append_of_ne_nil hb]
  split_ifs <;> rfl

theorem withoutFirst_append (ha : a ≠ []) : withoutFirst s (a ++ b) = withoutFirst s a ++ b := by
  unfold withoutFirst
  rw [List.head?_append_of_ne_nil a ha, List.tail_append_of_ne_nil ha]
  split_ifs <;> rfl

theorem withoutLast_concat : withoutLast s (a ++ [s]) = a := by simp [withoutLast]

theorem withoutFirst_cons : withoutFirst s (s :: b) = b := by simp [withoutFirst]

/-- Only the separator itself has nothing left. -/
theorem withoutFirst_ne_nil (hb : b ≠ []) (hs : b ≠ [s]) : withoutFirst s b ≠ [] := by
  obtain ⟨x, b, rfl⟩ := List.exists_cons_of_ne_nil hb
  unfold withoutFirst
  split_ifs with h
  · rintro rfl
    exact hs (by simpa using h)
  · simp

theorem withoutLast_ne_nil (hb : b ≠ []) (hs : b ≠ [s]) : withoutLast s b ≠ [] := by
  rcases List.eq_nil_or_concat b with rfl | ⟨b, x, rfl⟩
  · exact absurd rfl hb
  · rw [List.concat_eq_append] at hs ⊢
    unfold withoutLast
    split_ifs with h
    · rw [List.dropLast_concat]
      rintro rfl
      exact hs (by simpa using h)
    · simp

/-- On any other list the two ends do not meet. -/
theorem withoutFirst_withoutLast (hb : b ≠ []) (hs : b ≠ [s]) :
    withoutFirst s (withoutLast s b) = withoutLast s (withoutFirst s b) := by
  obtain ⟨x, b, rfl⟩ := List.exists_cons_of_ne_nil hb
  rcases eq_or_ne b [] with rfl | hne
  · have hx : x ≠ s := fun h => hs (by rw [h])
    simp [withoutFirst, withoutLast, hx]
  · have hl : withoutLast s (x :: b) = x :: withoutLast s b := withoutLast_append (a := [x]) hne
    rcases eq_or_ne x s with rfl | hx
    · rw [hl, withoutFirst_cons, withoutFirst_cons]
    · have h1 : withoutFirst s (x :: withoutLast s b) = x :: withoutLast s b := by
        simp [withoutFirst, hx]
      have h2 : withoutFirst s (x :: b) = x :: b := by simp [withoutFirst, hx]
      rw [hl, h1, h2, hl]

/-- **Gluing is associative**, also where an operand is the separator itself. -/
theorem glue_assoc (s : α) (a b c : List α) : glue s (glue s a b) c = glue s a (glue s b c) := by
  rcases eq_or_ne a [] with rfl | ha
  · rw [glue_nil_left, glue_nil_left]
  rcases eq_or_ne b [] with rfl | hb
  · rw [glue_nil_right, glue_nil_left]
  rcases eq_or_ne c [] with rfl | hc
  · rw [glue_nil_right, glue_nil_right]
  rw [glue_of_ne (glue_ne_nil ha hb) hc, glue_of_ne ha (glue_ne_nil hb hc), glue_of_ne ha hb,
    glue_of_ne hb hc]
  rcases eq_or_ne b [s] with rfl | hs
  · -- the separator alone: both sides have it once
    have hl : withoutLast s [s] = [] := withoutLast_concat (a := [])
    rw [withoutFirst_cons, withoutLast_concat, hl, List.nil_append, withoutFirst_cons]
  · have h1 : withoutLast s (withoutLast s a ++ s :: withoutFirst s b) =
        withoutLast s a ++ s :: withoutLast s (withoutFirst s b) := by
      rw [List.append_cons, withoutLast_append (withoutFirst_ne_nil hb hs)]
      simp
    rw [h1, withoutFirst_append (withoutLast_ne_nil hb hs), withoutFirst_withoutLast hb hs]
    simp

end Glue

section Grouping

/-- A chain of operands with parentheses. -/
inductive Grouping (α : Type) where
  | operand (a : α)
  | group (left right : Grouping α)

variable {α : Type}

/-- The operands from left to right. -/
def Grouping.operands : Grouping α → List α
  | .operand a => [a]
  | .group l r => l.operands ++ r.operands

/-- What the chain computes. -/
def Grouping.value (op : α → α → α) : Grouping α → α
  | .operand a => a
  | .group l r => op (l.value op) (r.value op)

variable {op : α → α → α} {e : α}

theorem foldr_append_eq (hassoc : ∀ a b c, op (op a b) c = op a (op b c)) (hid : ∀ a, op e a = a)
    (y : List α) : ∀ x : List α, (x ++ y).foldr op e = op (x.foldr op e) (y.foldr op e)
  | [] => (hid _).symm
  | a :: x => by
    show op a ((x ++ y).foldr op e) = op (op a (x.foldr op e)) (y.foldr op e)
    rw [foldr_append_eq hassoc hid y x, hassoc]

/-- The value of a chain is that of its operands, one after the other. -/
theorem Grouping.value_eq_foldr (hassoc : ∀ a b c, op (op a b) c = op a (op b c))
    (hleft : ∀ a, op e a = a) (hright : ∀ a, op a e = a) :
    ∀ g : Grouping α, g.value op = g.operands.foldr op e
  | .operand a => (hright a).symm
  | .group l r => by
    show op (l.value op) (r.value op) = (l.operands ++ r.operands).foldr op e
    rw [foldr_append_eq hassoc hleft, value_eq_foldr hassoc hleft hright l,
      value_eq_foldr hassoc hleft hright r]

end Grouping

end ServeD.Lib.Joining
