import Mathlib.Data.Nat.Notation

/-! # Loops that may not end

`while (!finished) body`, with a bound on the number of rounds; the loop ends if some bound is
enough.

* `ends_step_iff`, `ends_finished_iff`: one round;
* `Ends.unique`: it ends in one state;
* `not_ends`: it does not end in an invariant that is never finished. -/

namespace ServeD.Lib.Loops

variable {σ : Type*} (finished : σ → Bool) (body : σ → σ)

/-- At most `n` rounds. -/
def loop : ℕ → σ → Option σ
  | 0, s => if finished s then some s else none
  | n + 1, s => if finished s then some s else loop n (body s)

/-- The loop ends in the state `t`. -/
def Ends (s t : σ) : Prop := ∃ n, loop finished body n s = some t

variable {finished body} {s t t' : σ}

theorem ends_finished_iff (h : finished s = true) : Ends finished body s t ↔ t = s := by
  constructor
  · rintro ⟨n, hn⟩
    cases n with
    | zero =>
      rw [loop, if_pos h] at hn
      exact (Option.some.inj hn).symm
    | succ n =>
      rw [loop, if_pos h] at hn
      exact (Option.some.inj hn).symm
  · rintro rfl
    exact ⟨0, by rw [loop, if_pos h]⟩

theorem ends_step_iff (h : finished s = false) : Ends finished body s t ↔
    Ends finished body (body s) t := by
  have hne : ¬ finished s = true := Bool.eq_false_iff.mp h
  constructor
  · rintro ⟨n, hn⟩
    cases n with
    | zero =>
      rw [loop, if_neg hne] at hn
      cases hn
    | succ n =>
      rw [loop, if_neg hne] at hn
      exact ⟨n, hn⟩
  · rintro ⟨n, hn⟩
    exact ⟨n + 1, by rw [loop, if_neg hne, hn]⟩

theorem Ends.unique (h : Ends finished body s t) (h' : Ends finished body s t') : t = t' := by
  obtain ⟨n, hn⟩ := h
  induction n generalizing s with
  | zero =>
    rw [loop] at hn
    split at hn
    · rename_i hs
      rw [(ends_finished_iff hs).mp h', ← Option.some.inj hn]
    · cases hn
  | succ n ih =>
    rw [loop] at hn
    split at hn
    · rename_i hs
      rw [(ends_finished_iff hs).mp h', ← Option.some.inj hn]
    · rename_i hs
      exact ih ((ends_step_iff (Bool.eq_false_iff.mpr hs)).mp h') hn

/-- **A loop that is never finished**. -/
theorem not_ends {I : σ → Prop} (hfinished : ∀ s, I s → finished s = false)
    (hbody : ∀ s, I s → I (body s)) (hs : I s) : ¬ Ends finished body s t := by
  rintro ⟨n, hn⟩
  induction n generalizing s with
  | zero =>
    rw [loop, if_neg (Bool.eq_false_iff.mp (hfinished s hs))] at hn
    cases hn
  | succ n ih =>
    rw [loop, if_neg (Bool.eq_false_iff.mp (hfinished s hs))] at hn
    exact ih (hbody s hs) hn

end ServeD.Lib.Loops
