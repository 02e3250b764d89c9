import Mathlib.Algebra.Order.BigOperators.Group.List
import Mathlib.Algebra.Order.Ring.Nat
import Mathlib.Data.List.Flatten
import Mathlib.Data.List.Perm.Basic
import Mathlib.Data.List.Range

/-! # Levels of a forest

A forest is given by what is directly below each of its nodes, and is finite: below a node there is
less than at it, by some size.

* `walk_levels`: a walk that takes the first node of a list and puts what is below it at the end
  goes through one level after the other;
* `exists_level_nil`: some level is empty;
* `perm_levels`: the levels together have the nodes of the trees, each as often as the trees have
  it. -/

namespace ServeD.Lib.Levels

variable {α : Type*} (sub : α → List α)

/-- The nodes of depth `k`. -/
def level (q : List α) : ℕ → List α
  | 0 => q
  | k + 1 => (level q k).flatMap sub

/-- The first `n` levels, one after the other. -/
def levels (q : List α) (n : ℕ) : List α := (List.range n).flatMap (level sub q)

variable {sub}

theorem level_flatMap (q : List α) (k : ℕ) : level sub (q.flatMap sub) k = level sub q (k + 1) := by
  induction k with
  | zero => rfl
  | succ k ih =>
    show (level sub (q.flatMap sub) k).flatMap sub = _
    rw [ih]
    rfl

theorem levels_succ (q : List α) (n : ℕ) :
    levels sub q (n + 1) = q ++ levels sub (q.flatMap sub) n := by
  unfold levels
  rw [List.range_succ_eq_map, List.flatMap_cons, List.flatMap_map]
  simp only [← level_flatMap]
  rfl

/-! ### Walking through the levels -/

section Walk

variable {β : Type*} {walk : List α → List α → β} {P : α → Prop}

/-- The nodes in front are taken one after the other. -/
theorem walk_append (hstep : ∀ a q acc, P a → walk (a :: q) acc = walk (q ++ sub a) (acc ++ [a])) :
    ∀ q r acc : List α, (∀ a ∈ q, P a) → walk (q ++ r) acc = walk (r ++ q.flatMap sub) (acc ++ q)
  | [], r, acc, _ => by rw [List.nil_append, List.flatMap_nil, List.append_nil, List.append_nil]
  | a :: q, r, acc, h => by
    rw [List.cons_append, hstep a _ acc (h a List.mem_cons_self), List.append_assoc,
      walk_append hstep q _ _ fun b hb => h b (List.mem_cons_of_mem a hb), List.flatMap_cons]
    simp only [List.append_assoc, List.singleton_append]

/-- **Level after level.** -/
theorem walk_levels (hstep : ∀ a q acc, P a → walk (a :: q) acc = walk (q ++ sub a) (acc ++ [a])) :
    ∀ (n : ℕ) (q acc : List α), (∀ k < n, ∀ a ∈ level sub q k, P a) →
      walk q acc = walk (level sub q n) (acc ++ levels sub q n)
  | 0, q, acc, _ => by
    show walk q acc = walk q (acc ++ [])
    rw [List.append_nil]
  | n + 1, q, acc, h => by
    have hq := walk_append hstep q [] acc (h 0 (Nat.succ_pos n))
    rw [List.append_nil, List.nil_append] at hq
    have hnext : ∀ k < n, ∀ a ∈ level sub (q.flatMap sub) k, P a := by
      intro k hk a ha
      rw [level_flatMap] at ha
      exact h (k + 1) (by omega) a ha
    rw [hq, walk_levels hstep n (q.flatMap sub) (acc ++ q) hnext, level_flatMap, levels_succ,
      List.append_assoc]

end Walk

/-! ### Finite forests -/

section Finite

variable {size : α → ℕ}

/-- Below a node there is less than at it. -/
def Smaller (sub : α → List α) (size : α → ℕ) : Prop := ∀ a, ((sub a).map size).sum < size a

theorem Smaller.lt (h : Smaller sub size) {a b : α} (hb : b ∈ sub a) : size b < size a :=
  Nat.lt_of_le_of_lt (List.single_le_sum (fun _ _ => Nat.zero_le _) _ (List.mem_map_of_mem hb))
    (h a)

/-- The nodes of a tree, each before what is below it. -/
def preorder (h : Smaller sub size) (a : α) : List α :=
  a :: (sub a).attach.flatMap fun b => preorder h b.1
termination_by size a
decreasing_by exact h.lt b.2

variable (h : Smaller sub size)
include h

theorem sum_flatMap_le (q : List α) :
    ((q.flatMap sub).map size).sum + q.length ≤ (q.map size).sum := by
  induction q with
  | nil => exact Nat.le_refl 0
  | cons a q ih =>
    have ha := h a
    rw [List.flatMap_cons, List.map_append, List.sum_append, List.map_cons, List.sum_cons,
      List.length_cons]
    omega

theorem exists_level_nil (q : List α) : ∃ n, level sub q n = [] := by
  -- the size of a level goes down as long as the level has nodes
  induction hn : (q.map size).sum using Nat.strongRecOn generalizing q with
  | ind n ih =>
    rcases eq_or_ne q [] with rfl | hq
    · exact ⟨0, rfl⟩
    · have hle := sum_flatMap_le h q
      have hpos := List.length_pos_iff.mpr hq
      obtain ⟨m, hm⟩ := ih _ (by omega) (q.flatMap sub) rfl
      exact ⟨m + 1, by rw [← level_flatMap, hm]⟩

theorem preorder_eq (a : α) : preorder h a = a :: (sub a).flatMap (preorder h) := by
  rw [preorder, List.flatMap_def, List.flatMap_def]
  congr 2
  exact List.attach_map_val

/-- The nodes in front, and then the trees below them. -/
theorem perm_flatMap_preorder (q : List α) :
    (q.flatMap (preorder h)).Perm (q ++ (q.flatMap sub).flatMap (preorder h)) := by
  induction q with
  | nil => exact List.Perm.refl []
  | cons a q ih =>
    rw [List.flatMap_cons, List.flatMap_cons, List.flatMap_append, preorder_eq, List.cons_append,
      List.cons_append]
    refine List.Perm.cons a ?_
    have hbelow := List.Perm.append_left ((sub a).flatMap (preorder h)) ih
    refine hbelow.trans ?_
    rw [← List.append_assoc, ← List.append_assoc]
    exact List.Perm.append_right _ List.perm_append_comm

/-- **Each node once.** -/
theorem perm_levels {n : ℕ} {q : List α} (hn : level sub q n = []) :
    (levels sub q n).Perm (q.flatMap (preorder h)) := by
  induction n generalizing q with
  | zero =>
    obtain rfl : q = [] := hn
    exact List.Perm.refl []
  | succ n ih =>
    rw [← level_flatMap] at hn
    rw [levels_succ]
    exact (List.Perm.append_left q (ih hn)).trans (perm_flatMap_preorder h q).symm

end Finite

end ServeD.Lib.Levels
