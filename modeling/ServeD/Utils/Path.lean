import ServeD.Lib.Joining

/-! # Joining paths

The operator `/` on strings of `SvdPackageUtils.scala`. On the characters it is `Joining.glue` with
the slash, so that it is associative and the empty string is neutral. -/

namespace ServeD.Utils.Path

open ServeD.Lib.Joining

/-- `a / b`, on the characters. -/
def joinChars (a b : List Char) : List Char :=
  if a.isEmpty then b
  else if b.isEmpty then a
  else if a.getLast? = some '/' then
    if b.head? = some '/' then a ++ b.tail
    else a ++ b
  else
    if b.head? = some '/' then a ++ b
    else a ++ '/' :: b

/-- `a / b`. -/
def join (a b : String) : String := String.ofList (joinChars a.toList b.toList)

/-- The string without one slash at its end, if there is one. -/
def withoutTrailingSlash (a : String) : String := String.ofList (withoutLast '/' a.toList)

/-- The string without one slash at its start, if there is one. -/
def withoutLeadingSlash (b : String) : String := String.ofList (withoutFirst '/' b.toList)

/-- Each branch of the operator leaves one slash between the two parts. -/
theorem joinChars_eq_glue (a b : List Char) : joinChars a b = glue '/' a b := by
  unfold joinChars glue withoutLast withoutFirst
  rcases eq_or_ne a [] with rfl | ha
  · rfl
  rcases eq_or_ne b [] with rfl | hb
  · simp [ha]
  rw [if_neg (by simpa using ha), if_neg (by simpa using hb), if_neg ha, if_neg hb]
  -- `a` is its initial part and the slash, `b` the slash and its tail
  have hlast : a.getLast? = some '/' → a.dropLast ++ ['/'] = a :=
    fun h => List.dropLast_append_getLast? '/' h
  have hhead : b.head? = some '/' → '/' :: b.tail = b := fun h => List.cons_head?_tail h
  split_ifs with h1 h2 h2
  · rw [← hlast h1]
    simp
  · rw [← hlast h1]
    simp
  · rw [hhead h2]
  · rfl

theorem join_eq (a b : String) : join a b = String.ofList (glue '/' a.toList b.toList) := by
  unfold join
  rw [joinChars_eq_glue]

theorem join_assoc (a b c : String) : join (join a b) c = join a (join b c) := by
  simp only [join_eq, String.toList_ofList, glue_assoc]

theorem join_empty_left (a : String) : join "" a = a := by
  rw [join_eq]
  show String.ofList (glue '/' [] a.toList) = a
  rw [glue_nil_left, String.ofList_toList]

theorem join_empty_right (a : String) : join a "" = a := by
  rw [join_eq]
  show String.ofList (glue '/' a.toList []) = a
  rw [glue_nil_right, String.ofList_toList]

theorem join_of_ne {a b : String} (ha : a ≠ "") (hb : b ≠ "") :
    join a b = withoutTrailingSlash a ++ "/" ++ withoutLeadingSlash b := by
  have hne : ∀ x : String, x ≠ "" → x.toList ≠ [] := fun x hx h => hx (String.toList_inj.mp h)
  rw [join_eq, glue_of_ne (hne a ha) (hne b hb)]
  apply String.toList_inj.mp
  simp [withoutTrailingSlash, withoutLeadingSlash]

/-- **Joining is a monoid.** It is associative and the empty string is neutral; between two nonempty
strings there is exactly one slash where they meet; and however the joins of a chain are grouped,
the path depends on the operands alone. -/
theorem join_monoid :
    (∀ a b c : String, join (join a b) c = join a (join b c)) ∧
      (∀ a : String, join "" a = a ∧ join a "" = a) ∧
      (∀ a b : String, a ≠ "" → b ≠ "" →
        join a b = withoutTrailingSlash a ++ "/" ++ withoutLeadingSlash b) ∧
      ∀ g g' : Grouping String, g.operands = g'.operands → g.value join = g'.value join := by
  refine ⟨join_assoc, fun a => ⟨join_empty_left a, join_empty_right a⟩, fun a b => join_of_ne, ?_⟩
  intro g g' h
  rw [Grouping.value_eq_foldr join_assoc join_empty_left join_empty_right, h,
    ← Grouping.value_eq_foldr join_assoc join_empty_left join_empty_right]

/-- The home directory, a sub-directory and a name, joined from either end. -/
example : join (join "/Users/501/" "/") "/domains" = join "/Users/501/" (join "/" "/domains") := by
  decide

end ServeD.Utils.Path
