import Mathlib.Data.List.Basic
import Mathlib.Data.List.DropRight
import Mathlib.Data.List.Induction

/-! # Segments of a name

A name is cut at its separators into segments. The names in front of it (`Front`) are the name
itself and what stands before one of its separators; these are the first segments joined again
(`front_iff_take`).

* `split_eq_splitOn`: a split that drops empty segments at the end drops none if the name does not
  end in a separator;
* `lookup_spec`: looking up the segments joined, then all but the last joined, and so on, finds the
  longest name in front that has a value. -/

namespace ServeD.Lib.Segments

variable {α β : Type} {sep : α}

/-! ### The names in front -/

/-- `p` is `s` or stands before a separator of `s`. -/
def Front (sep : α) (s p : List α) : Prop := p = s ∨ p ++ [sep] <+: s

theorem Front.length_le {s p : List α} (h : Front sep s p) : p.length ≤ s.length := by
  rcases h with rfl | h
  · exact Nat.le_refl _
  · have := h.length_le
    rw [List.length_append, List.length_singleton] at this
    omega

/-- A name without separators has only itself in front. -/
theorem front_of_not_mem {s p : List α} (hs : sep ∉ s) : Front sep s p ↔ p = s := by
  constructor
  · rintro (h | h)
    · exact h
    · exact absurd (h.subset (by simp)) hs
  · exact Or.inl

/-- The names in front of a longer name, by its last separator. -/
theorem front_append {l x p : List α} (hx : sep ∉ x) :
    Front sep (l ++ sep :: x) p ↔ p = l ++ sep :: x ∨ Front sep l p := by
  unfold Front
  refine or_congr_right ⟨?_, ?_⟩
  · rintro ⟨t, ht⟩
    rw [List.append_assoc, List.singleton_append] at ht
    rcases List.append_eq_append_iff.mp ht with ⟨a, hl, ha⟩ | ⟨a, hp, ha⟩
    · rcases a with _ | ⟨y, a⟩
      · exact .inl (by rw [hl, List.append_nil])
      · obtain ⟨rfl, -⟩ := List.cons_eq_cons.mp ha
        exact .inr ⟨a, by rw [hl, List.append_assoc]; rfl⟩
    · rcases a with _ | ⟨y, a⟩
      · exact .inl (by rw [hp, List.append_nil])
      · -- a later separator would be in `x`
        obtain ⟨rfl, hxa⟩ := List.cons_eq_cons.mp ha
        exact absurd (by rw [hxa]; simp) hx
  · rintro (rfl | ⟨t, rfl⟩)
    · exact ⟨x, by simp⟩
    · exact ⟨t ++ sep :: x, by simp⟩

/-- Two names of one length in front of the same name are equal. -/
theorem Front.eq_of_length {s p q : List α} (hp : Front sep s p) (hq : Front sep s q)
    (h : p.length = q.length) : p = q := by
  have hfront : ∀ {r}, Front sep s r → r <+: s := by
    rintro r (rfl | hr)
    · exact List.prefix_refl r
    · exact (List.prefix_append r [sep]).trans hr
  exact (List.prefix_of_prefix_length_le (hfront hp) (hfront hq) (by omega)).eq_of_length h

theorem intercalate_append : ∀ {l r : List (List α)}, l ≠ [] → r ≠ [] →
    [sep].intercalate (l ++ r) = [sep].intercalate l ++ sep :: [sep].intercalate r
  | [x], r, _, hr => by
    obtain ⟨y, r, rfl⟩ := List.exists_cons_of_ne_nil hr
    rw [List.singleton_append, List.intercalate_cons_cons, List.intercalate_singleton,
      List.append_assoc]
    rfl
  | x :: y :: l, r, _, hr => by
    have ih := intercalate_append (l := y :: l) (by simp) hr
    rw [List.cons_append, List.cons_append, List.intercalate_cons_cons, ← List.cons_append, ih,
      List.intercalate_cons_cons]
    simp

/-! ### Splitting -/

section Splitting

variable [DecidableEq α]

/-- The segments, with no empty ones at the end; a name without separators is its only segment. -/
def split (sep : α) (s : List α) : List (List α) :=
  if sep ∈ s then (s.splitOn sep).rdropWhile (·.isEmpty) else [s]

theorem exists_last_sep : ∀ {s : List α}, sep ∈ s → ∃ a b, s = a ++ sep :: b ∧ sep ∉ b
  | [], h => by cases h
  | x :: s, h => by
    by_cases hs : sep ∈ s
    · obtain ⟨a, b, rfl, hb⟩ := exists_last_sep hs
      exact ⟨x :: a, b, rfl, hb⟩
    · rcases List.mem_cons.mp h with rfl | h
      · exact ⟨[], s, rfl, hs⟩
      · exact absurd h hs

theorem split_eq_splitOn {s : List α} (h : s.getLast? ≠ some sep) :
    split sep s = s.splitOn sep := by
  unfold split
  split_ifs with hs
  · obtain ⟨a, b, rfl, hb⟩ := exists_last_sep hs
    -- the last segment is not empty
    have hne : b ≠ [] := by
      rintro rfl
      exact h List.getLast?_concat
    rw [List.splitOn_append_cons_self, List.splitOn_eq_singleton hb, List.rdropWhile_concat_neg]
    simpa using hne
  · rw [List.splitOn_eq_singleton hs]

theorem not_mem_of_mem_splitOn : ∀ {s w : List α}, w ∈ s.splitOn sep → sep ∉ w
  | [], w, h => by
    rw [List.splitOn_nil, List.mem_singleton] at h
    rw [h]
    exact List.not_mem_nil
  | x :: s, w, h => by
    rw [List.splitOn_cons_eq_if_modifyHead] at h
    split_ifs at h with hx
    · rcases List.mem_cons.mp h with rfl | h
      · exact List.not_mem_nil
      · exact not_mem_of_mem_splitOn h
    · obtain ⟨v, vs, hv⟩ := List.exists_cons_of_ne_nil (List.splitOn_ne_nil sep s)
      have ih : ∀ u ∈ v :: vs, sep ∉ u := fun u hu => not_mem_of_mem_splitOn (s := s) (hv ▸ hu)
      rw [hv, List.modifyHead_cons] at h
      rcases List.mem_cons.mp h with rfl | h
      · intro hmem
        rcases List.mem_cons.mp hmem with rfl | hmem
        · exact hx (by simp)
        · exact ih v List.mem_cons_self hmem
      · exact ih w (List.mem_cons_of_mem v h)

/-- They are the first segments, joined. -/
theorem front_iff_take {s p : List α} :
    Front sep s p ↔
      ∃ k, 1 ≤ k ∧ k ≤ (s.splitOn sep).length ∧ p = [sep].intercalate ((s.splitOn sep).take k) := by
  have hpos : 1 ≤ (s.splitOn sep).length := List.length_pos_of_ne_nil (List.splitOn_ne_nil sep s)
  constructor
  · rintro (rfl | ⟨t, rfl⟩)
    · exact ⟨_, hpos, Nat.le_refl _, by rw [List.take_length, List.intercalate_splitOn]⟩
    · have hp : 1 ≤ (p.splitOn sep).length := List.length_pos_of_ne_nil (List.splitOn_ne_nil sep p)
      rw [List.append_assoc, List.singleton_append, List.splitOn_append_cons_self]
      refine ⟨_, hp, ?_, ?_⟩
      · rw [List.length_append]
        omega
      · rw [List.take_left, List.intercalate_splitOn]
  · rintro ⟨k, hk, hle, rfl⟩
    rcases Nat.eq_or_lt_of_le hle with rfl | hlt
    · rw [List.take_length, List.intercalate_splitOn]
      exact .inl rfl
    · -- some segments are left out, the separator is before the first of them
      have htake : (s.splitOn sep).take k ≠ [] := List.ne_nil_of_length_pos (by
        rw [List.length_take]
        omega)
      have hdrop : (s.splitOn sep).drop k ≠ [] := List.ne_nil_of_length_pos (by
        rw [List.length_drop]
        omega)
      refine .inr ⟨[sep].intercalate ((s.splitOn sep).drop k), ?_⟩
      rw [List.append_assoc, List.singleton_append, ← intercalate_append htake hdrop,
        List.take_append_drop, List.intercalate_splitOn]

end Splitting

/-! ### Looking up -/

/-- The value of the segments joined, or else of all but the last one;
the last segment comes first. -/
def lookup (get : List α → Option β) (sep : α) : List (List α) → Option β
  | [] => none
  | x :: xs => (get ([sep].intercalate (x :: xs).reverse)).or (lookup get sep xs)

/-- **The longest name in front.** What is found is the value of a name in front, and no longer one
has a value; if nothing is found, none has. -/
theorem lookup_spec (get : List α → Option β) {l : List (List α)} (hsep : ∀ w ∈ l, sep ∉ w)
    (hl : l ≠ []) :
    (∃ p v, Front sep ([sep].intercalate l) p ∧ get p = some v ∧ lookup get sep l.reverse = some v ∧
        ∀ q, Front sep ([sep].intercalate l) q → p.length < q.length → get q = none) ∨
      lookup get sep l.reverse = none ∧ ∀ p, Front sep ([sep].intercalate l) p → get p = none := by
  induction l using List.reverseRecOn with
  | nil => exact absurd rfl hl
  | append_singleton l x ih =>
    have hx : sep ∉ x := hsep x (by simp)
    have hstep : lookup get sep (l ++ [x]).reverse =
        (get ([sep].intercalate (l ++ [x]))).or (lookup get sep l.reverse) := by
      rw [List.reverse_append, List.reverse_singleton, List.singleton_append]
      show (get ([sep].intercalate (x :: l.reverse).reverse)).or _ = _
      rw [List.reverse_cons, List.reverse_reverse]
    rw [hstep]
    rcases hg : get ([sep].intercalate (l ++ [x])) with _ | v
    · rw [Option.none_or]
      rcases eq_or_ne l [] with rfl | hl'
      · right
        refine ⟨rfl, fun p hp => ?_⟩
        rw [List.nil_append, List.intercalate_singleton] at hg hp
        rw [(front_of_not_mem hx).mp hp, hg]
      · -- the names in front are the whole name, which has no value, and those in front of `l`
        rw [intercalate_append hl' (by simp), List.intercalate_singleton] at hg ⊢
        rcases ih (fun w hw => hsep w (by simp [hw])) hl' with
          ⟨p, v, hp, hv, hlk, hmax⟩ | ⟨hlk, hnone⟩
        · refine .inl ⟨p, v, (front_append hx).mpr (.inr hp), hv, hlk, fun q hq hlt => ?_⟩
          rcases (front_append hx).mp hq with rfl | hq
          · exact hg
          · exact hmax q hq hlt
        · refine .inr ⟨hlk, fun p hp => ?_⟩
          rcases (front_append hx).mp hp with rfl | hp
          · exact hg
          · exact hnone p hp
    · refine .inl ⟨_, v, .inl rfl, hg, rfl, fun q hq hlt => ?_⟩
      have := hq.length_le
      omega

section Names

variable [DecidableEq α] {get get' : List α → Option β} {s n : List α}

/-- The same for the segments of a name. -/
theorem lookup_splitOn (sep : α) (get : List α → Option β) (s : List α) :
    (∃ p v, Front sep s p ∧ get p = some v ∧ lookup get sep (s.splitOn sep).reverse = some v ∧
        ∀ q, Front sep s q → p.length < q.length → get q = none) ∨
      lookup get sep (s.splitOn sep).reverse = none ∧ ∀ p, Front sep s p → get p = none := by
  have h := lookup_spec get (fun w hw => not_mem_of_mem_splitOn hw) (List.splitOn_ne_nil sep s)
  rwa [List.intercalate_splitOn] at h

theorem lookup_eq_some {p : List α} {v : β} (hp : Front sep s p) (hv : get p = some v)
    (hmax : ∀ q, Front sep s q → p.length < q.length → get q = none) :
    lookup get sep (s.splitOn sep).reverse = some v := by
  rcases lookup_splitOn sep get s with ⟨p', v', hp', hv', hlk, hmax'⟩ | ⟨-, hnone⟩
  · -- neither of the two names is longer
    have hle : ¬ p.length < p'.length := fun h => by
      rw [hmax p' hp' h] at hv'
      cases hv'
    have hge : ¬ p'.length < p.length := fun h => by
      rw [hmax' p hp h] at hv
      cases hv
    obtain rfl := hp.eq_of_length hp' (by omega)
    rw [hlk, ← hv', hv]
  · rw [hnone p hp] at hv
    cases hv

/-- The value for `n` does not matter if `n` is not in front or a longer name in front
has a value. -/
theorem lookup_unaffected (h : ∀ q, q ≠ n → get q = get' q)
    (hn : ¬ Front sep s n ∨ ∃ q, Front sep s q ∧ n.length < q.length ∧ get q ≠ none) :
    lookup get sep (s.splitOn sep).reverse = lookup get' sep (s.splitOn sep).reverse := by
  rcases lookup_splitOn sep get s with ⟨p, v, hp, hv, hlk, hmax⟩ | ⟨hlk, hnone⟩
  · -- the name that is found is longer than `n`, if `n` is in front at all
    have hlt : Front sep s n → n.length < p.length := by
      intro hfn
      obtain hnot | ⟨q, hq, hnq, hne⟩ := hn
      · exact absurd hfn hnot
      · by_contra hle
        exact hne (hmax q hq (by omega))
    have hpn : p ≠ n := by
      rintro rfl
      exact absurd (hlt hp) (by omega)
    rw [hlk]
    refine (lookup_eq_some hp (by rw [← h p hpn, hv]) fun q hq hpq => ?_).symm
    have hqn : q ≠ n := by
      rintro rfl
      have := hlt hq
      omega
    rw [← h q hqn, hmax q hq hpq]
  · have hfn : ¬ Front sep s n := by
      obtain hnot | ⟨q, hq, -, hne⟩ := hn
      · exact hnot
      · exact absurd (hnone q hq) hne
    rcases lookup_splitOn sep get' s with ⟨p, v, hp, hv, -⟩ | ⟨hlk', -⟩
    · have hpn : p ≠ n := by
        rintro rfl
        exact hfn hp
      rw [← h p hpn, hnone p hp] at hv
      cases hv
    · rw [hlk, hlk']

end Names

end ServeD.Lib.Segments
