import Mathlib.Algebra.BigOperators.Group.List.Basic
import Mathlib.Algebra.GroupWithZero.Nat
import Mathlib.Data.List.Basic
import Mathlib.Logic.Relation

/-! # Actors with messages on their way

A system of actors: `handle` says what an actor can make of a message, and `input` what can come
from outside. The messages on their way have no order, and one can get lost, so every interleaving
of every schedule is a run.

* `Reaches.invariant`: a property of the states, and one of each message in its state, are kept by
  every run if every message that has the second and is handled in a state with the first keeps
  both;
* `Reaches.purge`: if there are messages that change nothing of a view of the state and only bring
  about others of the kind, then every run is a run of the view without these messages: what is not
  in the view has no influence on it;
* `Reaches.weight_le`: what an actor can only hand on, but not double, is never more than at the
  beginning. -/

namespace ServeD.Lib.Actors

/-- A message on its way. -/
structure Envelope (A M : Type*) where
  receiver : A
  sender : A
  message : M

/-- The state of all actors, and the messages on their way. -/
structure Net (σ A M : Type*) where
  state : σ
  flight : List (Envelope A M)

/-- What happens to a message, and what comes from outside:
the state before and after it and the messages sent. -/
structure System (σ A M : Type*) where
  handle : Envelope A M → σ → σ → List (Envelope A M) → Prop
  input : σ → σ → List (Envelope A M) → Prop

variable {σ A M : Type*}

inductive Step (S : System σ A M) : Net σ A M → Net σ A M → Prop
  | deliver {pre post out : List (Envelope A M)} {e : Envelope A M} {s s' : σ}
    (h : S.handle e s s' out) :
      Step S ⟨s, pre ++ e :: post⟩ ⟨s', pre ++ (post ++ out)⟩
  | lose {pre post : List (Envelope A M)} {e : Envelope A M} {s : σ} :
    Step S ⟨s, pre ++ e :: post⟩ ⟨s, pre ++ post⟩
  | input {flight out : List (Envelope A M)} {s s' : σ} (h : S.input s s' out) :
      Step S ⟨s, flight⟩ ⟨s', flight ++ out⟩

/-- The message between `pre` and `post` is delivered. -/
theorem Step.between {S : System σ A M} (pre post : List (Envelope A M)) {out : List (Envelope A M)}
    {e : Envelope A M} {s s' : σ} (h : S.handle e s s' out) :
    Step S ⟨s, pre ++ e :: post⟩ ⟨s', pre ++ (post ++ out)⟩ :=
  .deliver h

abbrev Reaches (S : System σ A M) : Net σ A M → Net σ A M → Prop := Relation.ReflTransGen (Step S)

/-! ### Invariants -/

section Invariant

/-- A property of the state and one of each message on its way. -/
def Holds (P : σ → Prop) (Q : σ → Envelope A M → Prop) (n : Net σ A M) : Prop :=
  P n.state ∧ ∀ e ∈ n.flight, Q n.state e

/-- Both properties after something has happened, `Q` also of the messages that are
still on their way. -/
def Keeps (P : σ → Prop) (Q : σ → Envelope A M → Prop) (s s' : σ) (out : List (Envelope A M)) :
    Prop :=
  P s' ∧ (∀ e ∈ out, Q s' e) ∧ ∀ e, Q s e → Q s' e

variable {S : System σ A M} {P : σ → Prop} {Q : σ → Envelope A M → Prop} {n n' : Net σ A M}

theorem Step.invariant (hhandle : ∀ e s s' out, P s → Q s e → S.handle e s s' out →
      Keeps P Q s s' out)
    (hinput : ∀ s s' out, P s → S.input s s' out → Keeps P Q s s' out) (h : Step S n n')
    (hn : Holds P Q n) :
    Holds P Q n' := by
  obtain ⟨hp, hq⟩ := hn
  cases h with
  | @deliver pre post out e s s' h =>
    obtain ⟨hp', hout, hkeep⟩ := hhandle e s s' out hp (hq e (by simp)) h
    refine ⟨hp', fun x hx => ?_⟩
    rcases List.mem_append.mp hx with hx | hx
    · exact hkeep x (hq x (List.mem_append_left _ hx))
    · rcases List.mem_append.mp hx with hx | hx
      · exact hkeep x (hq x (List.mem_append_right _ (List.mem_cons_of_mem e hx)))
      · exact hout x hx
  | @lose pre post e s =>
    refine ⟨hp, fun x hx => hq x ?_⟩
    rcases List.mem_append.mp hx with hx | hx
    · exact List.mem_append_left _ hx
    · exact List.mem_append_right _ (List.mem_cons_of_mem e hx)
  | @input flight out s s' h =>
    obtain ⟨hp', hout, hkeep⟩ := hinput s s' out hp h
    refine ⟨hp', fun x hx => ?_⟩
    rcases List.mem_append.mp hx with hx | hx
    · exact hkeep x (hq x hx)
    · exact hout x hx

/-- What messages and inputs keep, a run keeps. -/
theorem Reaches.invariant (hhandle : ∀ e s s' out, P s → Q s e → S.handle e s s' out →
      Keeps P Q s s' out)
    (hinput : ∀ s s' out, P s → S.input s s' out → Keeps P Q s s' out) (h : Reaches S n n')
    (hn : Holds P Q n) :
    Holds P Q n' := by
  induction h with
  | refl => exact hn
  | tail _ hstep ih => exact hstep.invariant hhandle hinput ih

end Invariant

/-! ### What has no influence -/

section Purge

variable {S : System σ A M} {P : σ → Prop} {Q : σ → Envelope A M → Prop} {view : σ → σ}
  {seen : σ → Envelope A M → Bool} {n n' : Net σ A M}

/-- The view of the state, and the messages that are seen. -/
def purge (view : σ → σ) (seen : σ → Envelope A M → Bool) (n : Net σ A M) : Net σ A M :=
  ⟨view n.state, n.flight.filter (seen n.state)⟩

/-- A run, without the messages that are not seen, is a run of the view. -/
theorem Reaches.purge (hhandle : ∀ e s s' out, P s → Q s e → S.handle e s s' out →
      Keeps P Q s s' out)
    (hinput : ∀ s s' out, P s → S.input s s' out → Keeps P Q s s' out)
    (hstable : ∀ s s' out, P s → (S.input s s' out ∨ ∃ e, Q s e ∧ S.handle e s s' out) →
      ∀ e, Q s e → seen s' e = seen s e)
    (hseen : ∀ e s s' out, P s → Q s e → seen s e = true → S.handle e s s' out →
      S.handle e (view s) (view s') (out.filter (seen s')))
    (hunseen : ∀ e s s' out, P s → Q s e → seen s e = false → S.handle e s s' out →
      view s' = view s ∧ out.filter (seen s') = [])
    (houtside : ∀ s s' out, P s → S.input s s' out →
      S.input (view s) (view s') (out.filter (seen s')) ∨
      view s' = view s ∧ out.filter (seen s') = [])
    (h : Reaches S n n') (hn : Holds P Q n) :
    Reaches S (purge view seen n) (purge view seen n') := by
  induction h with
  | refl => exact .refl
  | @tail m m' hrun hstep ih =>
    obtain ⟨hp, hq⟩ := Reaches.invariant hhandle hinput hrun hn
    refine ih.trans ?_
    cases hstep with
    | @deliver pre post out e s s' h =>
      have he : Q s e := hq e (by simp)
      have hsame : ∀ x ∈ pre ++ post, seen s' x = seen s x := fun x hx =>
        hstable s s' out hp (.inr ⟨e, he, h⟩) x (hq x (by
          rcases List.mem_append.mp hx with hx | hx
          · exact List.mem_append_left _ hx
          · exact List.mem_append_right _ (List.mem_cons_of_mem e hx)))
      have hpre : pre.filter (seen s') = pre.filter (seen s) :=
        List.filter_congr fun x hx => hsame x (List.mem_append_left _ hx)
      have hpost : post.filter (seen s') = post.filter (seen s) :=
        List.filter_congr fun x hx => hsame x (List.mem_append_right _ hx)
      unfold Actors.purge
      simp only [List.filter_append, hpre, hpost]
      by_cases hs : seen s e = true
      · rw [List.filter_cons_of_pos hs]
        exact .single (.deliver (hseen e s s' out hp he hs h))
      · have hfalse : seen s e = false := Bool.not_eq_true _ ▸ hs
        obtain ⟨hview, hout⟩ := hunseen e s s' out hp he hfalse h
        rw [List.filter_cons_of_neg hs, hview, hout, List.append_nil]
    | @lose pre post e s =>
      unfold Actors.purge
      simp only [List.filter_append]
      by_cases hs : seen s e = true
      · rw [List.filter_cons_of_pos hs]
        exact .single .lose
      · rw [List.filter_cons_of_neg hs]
    | @input flight out s s' h =>
      have hflight : flight.filter (seen s') = flight.filter (seen s) :=
        List.filter_congr fun x hx => hstable s s' out hp (.inl h) x (hq x hx)
      unfold Actors.purge
      simp only [List.filter_append, hflight]
      rcases houtside s s' out hp h with h | ⟨hview, hout⟩
      · exact .single (.input h)
      · rw [hview, hout, List.append_nil]

end Purge

/-! ### What is not doubled -/

section Weight

variable {S : System σ A M} {v : σ → ℕ} {w : Envelope A M → ℕ} {n n' : Net σ A M}

/-- The weight of the state and of the messages on their way. -/
def weight (v : σ → ℕ) (w : Envelope A M → ℕ) (n : Net σ A M) : ℕ :=
  v n.state + (n.flight.map w).sum

theorem Reaches.weight_le (hhandle : ∀ e s s' out, S.handle e s s' out →
      v s' + (out.map w).sum ≤ v s + w e)
    (hinput : ∀ s s' out, S.input s s' out → v s' + (out.map w).sum ≤ v s) (h : Reaches S n n') :
    weight v w n' ≤ weight v w n := by
  induction h with
  | refl => exact Nat.le_refl _
  | tail _ hstep ih =>
    refine Nat.le_trans ?_ ih
    unfold weight
    cases hstep with
    | @deliver pre post out e s s' h =>
      have := hhandle e s s' out h
      simp only [List.map_append, List.map_cons, List.sum_append, List.sum_cons]
      omega
    | @lose pre post e s =>
      simp only [List.map_append, List.map_cons, List.sum_append, List.sum_cons]
      omega
    | @input flight out s s' h =>
      have := hinput s s' out h
      simp only [List.map_append, List.sum_append]
      omega

end Weight

end ServeD.Lib.Actors
