import Mathlib.Logic.Function.Basic
import Mathlib.Tactic.SplitIfs

/-! # Locks of files that belong to processes

A table says which process holds the lock of a file. A process takes a lock if nobody else holds it,
may take again what it holds, and loses all of its locks at its end.

`Guarded locks past`: whoever is past the lock of a file holds it. What takes locks before it goes
past them keeps this (`Guarded.take`), and so does an end (`Guarded.release`); nobody is past a lock
together with another (`Guarded.unique`). -/

namespace ServeD.Lib.FileLocks

variable {F P : Type*}

/-- The process that holds the lock of a file. -/
abbrev Locks (F P : Type*) := F → Option P

/-- `lockf(.., F_TLOCK, 0)` on a whole file. -/
def take [DecidableEq F] [DecidableEq P] (locks : Locks F P) (f : F) (p : P) : Option (Locks F P) :=
  if locks f = none ∨ locks f = some p then some (Function.update locks f (some p)) else none

/-- The end of a process. -/
def release [DecidableEq P] (locks : Locks F P) (p : P) : Locks F P :=
  fun f => if locks f = some p then none else locks f

section Table

variable [DecidableEq P] {locks locks' : Locks F P} {f : F} {p q : P}

theorem take_eq_some [DecidableEq F] (h : take locks f p = some locks') :
    (locks f = none ∨ locks f = some p) ∧ locks' = Function.update locks f (some p) := by
  unfold take at h
  split_ifs at h with hf
  exact ⟨hf, (Option.some.inj h).symm⟩

theorem take_free [DecidableEq F] (h : locks f = none) :
    take locks f p = some (Function.update locks f (some p)) := if_pos (.inl h)

theorem take_held [DecidableEq F] (h : locks f = some q) (hne : q ≠ p) : take locks f p = none := by
  unfold take
  rw [if_neg]
  rintro (h' | h')
  · rw [h] at h'; cases h'
  · exact hne (Option.some.inj (h.symm.trans h'))

theorem release_eq_some : release locks p f = some q ↔ locks f = some q ∧ q ≠ p := by
  unfold release
  split_ifs with h
  · refine ⟨fun h' => h'.elim, fun h' => (h'.2 ?_).elim⟩
    exact Option.some.inj (h'.1.symm.trans h)
  · exact ⟨fun h' => ⟨h', fun hq => h (hq ▸ h')⟩, fun h' => h'.1⟩

/-- A process that holds nothing leaves the table as it is. -/
theorem release_of_not_held (h : ∀ f, locks f ≠ some p) : release locks p = locks :=
  funext fun f => if_neg (h f)

end Table

/-- Whoever is past the lock of a file holds it. -/
def Guarded (locks : Locks F P) (past : P → F → Prop) : Prop := ∀ p f, past p f → locks f = some p

section Guarded

variable {locks locks' : Locks F P} {past past' : P → F → Prop} {f : F} {p q : P}

theorem Guarded.unique (h : Guarded locks past) (hp : past p f) (hq : past q f) : p = q :=
  Option.some.inj ((h p f hp).symm.trans (h q f hq))

theorem Guarded.mono (h : Guarded locks past) (hpast : ∀ p f, past' p f → past p f) :
    Guarded locks past' := fun p f hp => h p f (hpast p f hp)

variable [DecidableEq P]

/-- Who takes the lock of `f` may go past it. -/
theorem Guarded.take [DecidableEq F] (h : Guarded locks past) (htake : take locks f p = some locks')
    (hpast : ∀ q g, past' q g → past q g ∨ (q = p ∧ g = f)) : Guarded locks' past' := by
  obtain ⟨hf, rfl⟩ := take_eq_some htake
  intro q g hq
  rcases hpast q g hq with hq | ⟨rfl, rfl⟩
  · by_cases hg : g = f
    · subst hg
      have hheld := h q g hq
      rw [Function.update_self]
      rcases hf with hf | hf
      · rw [hheld] at hf; cases hf
      · rw [hf] at hheld; exact hheld
    · rw [Function.update_of_ne hg]
      exact h q g hq
  · exact Function.update_self ..

/-- Who ends is past no lock. -/
theorem Guarded.release (h : Guarded locks past) (hpast : ∀ q g, past' q g → past q g ∧ q ≠ p) :
    Guarded (release locks p) past' := fun q g hq =>
  release_eq_some.mpr ⟨h q g (hpast q g hq).1, (hpast q g hq).2⟩

end Guarded

end ServeD.Lib.FileLocks
