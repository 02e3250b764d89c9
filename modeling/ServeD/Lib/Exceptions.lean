import Mathlib.Data.List.Basic

/-! # Computations with state and exceptions

`EStateM`, where an exception leaves the state as it is: how one step after another is run, and the
parts of the state that a computation does not change (`Frame`). -/

namespace ServeD.Lib.Exceptions

variable {ε σ α β γ : Type}

/-- The state after a computation. -/
def final : EStateM.Result ε σ α → σ
  | .ok _ s => s
  | .error _ s => s

@[simp] theorem final_ok (a : α) (s : σ) : final (.ok a s : EStateM.Result ε σ α) = s := rfl

@[simp] theorem final_error (e : ε) (s : σ) : final (.error e s : EStateM.Result ε σ α) = s := rfl

/-! ### One step after another -/

section Steps

variable {x : EStateM ε σ α} {f : α → EStateM ε σ β} {s s' : σ}

theorem bind_ok {a : α} (h : x s = .ok a s') : (x >>= f) s = f a s' := by
  show EStateM.bind x f s = _
  rw [EStateM.bind, h]

theorem bind_error {e : ε} (h : x s = .error e s') : (x >>= f) s = .error e s' := by
  show EStateM.bind x f s = _
  rw [EStateM.bind, h]

theorem bind_eq_ok {b : β} : (x >>= f) s = .ok b s' ↔
    ∃ a s₁, x s = .ok a s₁ ∧ f a s₁ = .ok b s' := by
  constructor
  · intro h
    rcases hx : x s with ⟨a, s₁⟩ | ⟨e, s₁⟩
    · rw [bind_ok hx] at h
      exact ⟨a, s₁, rfl, h⟩
    · rw [bind_error hx] at h
      cases h
  · rintro ⟨a, s₁, hx, hf⟩
    rw [bind_ok hx, hf]

theorem tryCatch_ok {h : ε → EStateM ε σ α} {a : α} (hx : x s = .ok a s') :
    tryCatch x h s = .ok a s' := by
  show EStateM.tryCatch x h s = _
  rw [EStateM.tryCatch, hx]

theorem tryCatch_error {h : ε → EStateM ε σ α} {e : ε} (hx : x s = .error e s') :
    tryCatch x h s = h e s' := by
  show EStateM.tryCatch x h s = _
  rw [EStateM.tryCatch, hx]
  rfl

end Steps

/-! ### What is not changed -/

/-- The part `f` of the state is not changed. -/
def Frame (f : σ → γ) (x : EStateM ε σ α) : Prop := ∀ s, f (final (x s)) = f s

namespace Frame

variable {f : σ → γ}

theorem pure (a : α) : Frame f (pure a : EStateM ε σ α) := fun _ => rfl

theorem throw (e : ε) : Frame f (throw e : EStateM ε σ α) := fun _ => rfl

theorem bind {x : EStateM ε σ α} {g : α → EStateM ε σ β} (hx : Frame f x)
    (hg : ∀ a, Frame f (g a)) :
    Frame f (x >>= g) := by
  intro s
  have h := hx s
  rcases hxs : x s with ⟨a, s'⟩ | ⟨e, s'⟩
  · rw [bind_ok hxs, hg a s']
    rwa [hxs] at h
  · rw [bind_error hxs]
    rwa [hxs] at h

theorem tryCatch {x : EStateM ε σ α} {h : ε → EStateM ε σ α} (hx : Frame f x)
    (hh : ∀ e, Frame f (h e)) :
    Frame f (tryCatch x h) := by
  intro s
  have hs := hx s
  rcases hxs : x s with ⟨a, s'⟩ | ⟨e, s'⟩
  · rw [tryCatch_ok hxs]
    rwa [hxs] at hs
  · rw [tryCatch_error hxs, hh e s']
    rwa [hxs] at hs

theorem ite {p : Prop} [Decidable p] {x y : EStateM ε σ α} (hx : Frame f x) (hy : Frame f y) :
    Frame f (if p then x else y) := by
  by_cases hp : p
  · rw [if_pos hp]
    exact hx
  · rw [if_neg hp]
    exact hy

theorem forM {g : α → EStateM ε σ PUnit} (hg : ∀ a, Frame f (g a)) :
    ∀ l : List α, Frame f (l.forM g)
  | [] => .pure _
  | a :: l => .bind (hg a) fun _ => forM hg l

end Frame

end ServeD.Lib.Exceptions
