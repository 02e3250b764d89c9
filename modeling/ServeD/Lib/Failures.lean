import Mathlib.Data.List.Basic

/-! # Computations that may fail

What a successful run of a `do` block or of a loop in `Except` says about its steps: all of them
succeeded. -/

namespace ServeD.Lib.Failures

variable {α β ε : Type}

theorem bind_eq_ok {x : Except ε α} {f : α → Except ε β} {r : β} :
    x >>= f = .ok r ↔ ∃ a, x = .ok a ∧ f a = .ok r := by
  constructor
  · intro h
    rcases x with d | a
    · cases h
    · exact ⟨a, rfl, h⟩
  · rintro ⟨a, rfl, h⟩
    exact h

/-- A loop whose turns all succeed. -/
theorem mapM_eq_ok {f : α → Except ε β} {g : α → β} {l : List α}
    (hf : ∀ a ∈ l, f a = .ok (g a)) : l.mapM f = .ok (l.map g) := by
  induction l with
  | nil => rfl
  | cons a l ih =>
    rw [List.mapM_cons, hf a List.mem_cons_self, ih fun a' ha' =>
      hf a' (List.mem_cons_of_mem a ha')]
    rfl

theorem eq_map_of_mapM {f : α → Except ε β} {g : α → β}
    (hf : ∀ a x, f a = .ok x → x = g a) {l : List α} {r : List β} (h : l.mapM f = .ok r) :
    r = l.map g := by
  induction l generalizing r with
  | nil => exact (Except.ok.inj h).symm
  | cons a l ih =>
    rw [List.mapM_cons] at h
    obtain ⟨x, hx, h⟩ := bind_eq_ok.mp h
    obtain ⟨xs, hxs, h⟩ := bind_eq_ok.mp h
    obtain rfl := Except.ok.inj h
    rw [List.map_cons, hf a x hx, ih hxs]

/-- As many results as elements. -/
theorem length_of_mapM {f : α → Option β} {l : List α} {r : List β} (h : l.mapM f = some r) :
    r.length = l.length := by
  induction l generalizing r with
  | nil =>
    obtain rfl := Option.some.inj h
    rfl
  | cons a l ih =>
    rw [List.mapM_cons] at h
    obtain ⟨b, -, h⟩ := Option.bind_eq_some_iff.mp h
    obtain ⟨bs, hbs, h⟩ := Option.bind_eq_some_iff.mp h
    obtain rfl := Option.some.inj h
    rw [List.length_cons, List.length_cons, ih hbs]

end ServeD.Lib.Failures
