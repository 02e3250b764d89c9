import ServeD.Lib.Regexes

/-! # Backtracking with groups

The part of `java.util.regex` that cuts a text into pieces: classes of characters, `$`, sequences,
alternatives, greedy repetitions and groups. `ways whole r s` are the ways in which `r` matches at
the beginning of `s`, a rest of the text `whole`, in the order in which the matcher tries them, with
the groups and what is left of `s`. A repetition takes only rounds that take characters.

* `First whole r s m`: `m` is the way that is tried first. A sequence whose parts go on with their
  first ways goes on with its first way (`First.seq`), so a text on which nothing has to be tried
  twice is matched piece by piece;
* `Cut whole r s ws`: the first ways, one after the other, cut `s` into the pieces `ws`, which are
  then what `findAllIn` finds (`Cut.findAllIn`);
* `local_ways`: an expression without `$` matches what it matched in a longer text also in the piece
  alone. -/

namespace ServeD.Lib.Backtracking

open ServeD.Lib.Texts ServeD.Lib.Regexes

inductive Regex where
  | empty
  | char (p : Char → Bool)
  /-- `$` -/
  | stop
  | seq (r q : Regex)
  /-- `r|q` -/
  | alt (r q : Regex)
  /-- `r*` -/
  | star (r : Regex)
  | group (n : ℕ) (r : Regex)

namespace Regex

/-- `r+` -/
def plus (r : Regex) : Regex := .seq r (.star r)

/-- `r?` -/
def opt (r : Regex) : Regex := .alt r .empty

end Regex

abbrev Groups := List (ℕ × Text)

abbrev Way := Groups × Text

/-- As many rounds as there can be, then fewer. -/
def rounds (f : Text → List Way) : ℕ → Text → List Way
  | 0, s => [([], s)]
  | n + 1, s =>
    ((f s).flatMap fun m =>
      if m.2.length < s.length then (rounds f n m.2).map fun m' =>
        (m.1 ++ m'.1, m'.2) else []) ++ [([], s)]

def ways (whole : Text) : Regex → Text → List Way
  | .empty, s => [([], s)]
  | .char _, [] => []
  | .char p, c :: s => if p c then [([], s)] else []
  | .stop, s => if isStop whole s then [([], s)] else []
  | .seq r q, s => (ways whole r s).flatMap fun m => (ways whole q m.2).map fun m' =>
    (m.1 ++ m'.1, m'.2)
  | .alt r q, s => ways whole r s ++ ways whole q s
  | .star r, s => rounds (ways whole r) s.length s
  | .group n r, s => (ways whole r s).map fun m => ((n, s.take (s.length - m.2.length)) :: m.1, m.2)

/-- What `find` matches next, and what is left. -/
def find (whole : Text) (r : Regex) : Text → Option (Text × Text)
  | [] => (ways whole r []).head?.map fun m => ([], m.2)
  | c :: s =>
    match (ways whole r (c :: s)).head? with
    | some m => some ((c :: s).take ((c :: s).length - m.2.length), m.2)
    | none => find whole r s

/-- What `find` matches until there is nothing left. -/
def findAll (whole : Text) (r : Regex) : ℕ → Text → List Text
  | 0, _ => []
  | n + 1, s =>
    match find whole r s with
    | none => []
    | some (w, t) => w :: findAll whole r n t

/-- `r.findAllIn(s)`, for an expression that takes characters. -/
def findAllIn (r : Regex) (s : Text) : List Text := findAll s r (s.length + 1) s

/-- The groups of `r` on the whole of `s`, as `case r(..)` has them. -/
def fullMatch (r : Regex) (s : Text) : Option Groups :=
  ((ways s r s).find? fun m => m.2.isEmpty).map Prod.fst

section Ways

variable {whole : Text} {r q : Regex} {s t : Text} {g : Groups} {m : Way} {p : Char → Bool}

theorem mem_seq : m ∈ ways whole (.seq r q) s ↔
    ∃ g t g', (g, t) ∈ ways whole r s ∧ (g', m.2) ∈ ways whole q t ∧ m.1 = g ++ g' := by
  rw [ways, List.mem_flatMap]
  constructor
  · rintro ⟨m₁, h₁, h⟩
    obtain ⟨m₂, h₂, rfl⟩ := List.mem_map.mp h
    exact ⟨m₁.1, m₁.2, m₂.1, h₁, h₂, rfl⟩
  · rintro ⟨g, t, g', h₁, h₂, hg⟩
    refine ⟨(g, t), h₁, List.mem_map.mpr ⟨(g', m.2), h₂, ?_⟩⟩
    rw [← hg]

theorem mem_alt : m ∈ ways whole (.alt r q) s ↔ m ∈ ways whole r s ∨ m ∈ ways whole q s :=
  List.mem_append

theorem mem_char : m ∈ ways whole (.char p) s ↔ ∃ c, p c = true ∧ m.1 = [] ∧ s = c :: m.2 := by
  cases s with
  | nil => simp [ways]
  | cons c s =>
    rw [ways]
    split_ifs with hp
    · rw [List.mem_singleton]
      constructor
      · rintro rfl
        exact ⟨c, hp, rfl, rfl⟩
      · rintro ⟨d, -, hg, hs⟩
        rw [(List.cons.inj hs).2, ← hg]
    · simp only [List.not_mem_nil, false_iff]
      rintro ⟨d, hd, -, hs⟩
      exact hp ((List.cons.inj hs).1 ▸ hd)

theorem mem_group {n : ℕ} : m ∈ ways whole (.group n r) s ↔
    ∃ g, (g, m.2) ∈ ways whole r s ∧ m.1 = (n, s.take (s.length - m.2.length)) :: g := by
  rw [ways, List.mem_map]
  constructor
  · rintro ⟨m', h, rfl⟩
    exact ⟨m'.1, h, rfl⟩
  · rintro ⟨g, h, hg⟩
    exact ⟨(g, m.2), h, by rw [← hg]⟩

theorem self_mem_rounds (f : Text → List Way) (n : ℕ) (s : Text) : ([], s) ∈ rounds f n s := by
  cases n with
  | zero => exact List.mem_singleton_self _
  | succ n => exact List.mem_append_right _ (List.mem_singleton_self _)

/-- A repetition may take nothing. -/
theorem self_mem_star : ([], s) ∈ ways whole (.star r) s := self_mem_rounds _ _ s

theorem mem_rounds_succ {f : Text → List Way} {n : ℕ} : m ∈ rounds f (n + 1) s ↔
    (∃ g t g', (g, t) ∈ f s ∧ t.length < s.length ∧ (g', m.2) ∈ rounds f n t ∧ m.1 = g ++ g') ∨
    m = ([], s) := by
  rw [rounds, List.mem_append, List.mem_singleton, List.mem_flatMap]
  refine or_congr_left ⟨?_, ?_⟩
  · rintro ⟨m₁, h₁, h⟩
    split_ifs at h with hlt
    · obtain ⟨m₂, h₂, rfl⟩ := List.mem_map.mp h
      exact ⟨m₁.1, m₁.2, m₂.1, h₁, hlt, h₂, rfl⟩
    · cases h
  · rintro ⟨g, t, g', h₁, hlt, h₂, hg⟩
    refine ⟨(g, t), h₁, ?_⟩
    rw [if_pos hlt]
    exact List.mem_map.mpr ⟨(g', m.2), h₂, by rw [← hg]⟩

/-- What is left is a rest of the text. -/
theorem suffix_rounds {f : Text → List Way} (hf : ∀ s, ∀ m ∈ f s, m.2 <:+ s) : ∀ (n : ℕ) (s : Text),
    ∀ m ∈ rounds f n s, m.2 <:+ s
  | 0, s, m, h => by
    obtain rfl := List.mem_singleton.mp h
    exact List.suffix_refl s
  | n + 1, s, m, h => by
    rcases mem_rounds_succ.mp h with ⟨g, t, g', h₁, -, h₂, -⟩ | rfl
    · exact (suffix_rounds hf n t _ h₂).trans (hf s _ h₁)
    · exact List.suffix_refl s

theorem suffix_ways : ∀ (r : Regex) (s : Text), ∀ m ∈ ways whole r s, m.2 <:+ s
  | .empty, s, m, h => by
    obtain rfl := List.mem_singleton.mp h
    exact List.suffix_refl s
  | .char p, s, m, h => by
    obtain ⟨c, -, -, rfl⟩ := mem_char.mp h
    exact List.suffix_cons c m.2
  | .stop, s, m, h => by
    rw [ways] at h
    split_ifs at h
    · obtain rfl := List.mem_singleton.mp h
      exact List.suffix_refl s
    · cases h
  | .seq r q, s, m, h => by
    obtain ⟨g, t, g', h₁, h₂, -⟩ := mem_seq.mp h
    exact (suffix_ways q t _ h₂).trans (suffix_ways r s _ h₁)
  | .alt r q, s, m, h => by
    rcases mem_alt.mp h with h | h
    · exact suffix_ways r s m h
    · exact suffix_ways q s m h
  | .star r, s, m, h => suffix_rounds (suffix_ways r) s.length s m h
  | .group n r, s, m, h => by
    obtain ⟨g, h, -⟩ := mem_group.mp h
    exact suffix_ways r s (g, m.2) h

/-- More rounds than characters change nothing. -/
theorem rounds_eq (f : Text → List Way) : ∀ {n k : ℕ} {s : Text}, s.length ≤ n → s.length ≤ k →
    rounds f n s = rounds f k s
  | 0, 0, s, _, _ => rfl
  | 0, k + 1, s, hn, _ => by
    have hs : s = [] := List.length_eq_zero_iff.mp (by omega)
    subst hs
    simp [rounds]
  | n + 1, 0, s, _, hk => by
    have hs : s = [] := List.length_eq_zero_iff.mp (by omega)
    subst hs
    simp [rounds]
  | n + 1, k + 1, s, hn, hk => by
    rw [rounds, rounds]
    congr 1
    refine List.flatMap_congr fun m _ => ?_
    split_ifs with hlt
    · rw [rounds_eq f (n := n) (k := k) (by omega) (by omega)]
    · rfl

end Ways

/-! ### The first way -/

/-- The way that is tried first. -/
def First (whole : Text) (r : Regex) (s : Text) (m : Way) : Prop := (ways whole r s).head? = some m

namespace First

variable {whole : Text} {r q : Regex} {s t u : Text} {g g' : Groups} {m : Way} {p : Char →
    Bool} {c : Char}

theorem mem (h : First whole r s m) : m ∈ ways whole r s := List.mem_of_head? h

theorem empty : First whole .empty s ([], s) := rfl

theorem char (h : p c = true) : First whole (.char p) (c :: s) ([], s) := by
  unfold First ways
  rw [if_pos h]
  rfl

theorem stop (h : isStop whole s = true) : First whole .stop s ([], s) := by
  unfold First ways
  rw [if_pos h]
  rfl

theorem seq (hr : First whole r s (g, t)) (hq : First whole q t (g', u)) :
    First whole (.seq r q) s (g ++ g', u) := by
  obtain ⟨ws, hws⟩ := List.head?_eq_some_iff.mp hr
  obtain ⟨ws', hws'⟩ := List.head?_eq_some_iff.mp hq
  unfold First ways
  rw [hws, List.flatMap_cons, hws']
  rfl

theorem altLeft (h : First whole r s m) : First whole (.alt r q) s m := by
  obtain ⟨ws, hws⟩ := List.head?_eq_some_iff.mp h
  unfold First ways
  rw [hws]
  rfl

theorem altRight (hr : ways whole r s = []) (hq : First whole q s m) :
    First whole (.alt r q) s m := by
  unfold First ways
  rw [hr, List.nil_append]
  exact hq

theorem group {n : ℕ} {w : Text} (h : First whole r (w ++ t) (g, t)) :
    First whole (.group n r) (w ++ t) ((n, w) :: g, t) := by
  obtain ⟨ws, hws⟩ := List.head?_eq_some_iff.mp h
  have htake : (w ++ t).take ((w ++ t).length - t.length) = w := by
    rw [List.length_append, Nat.add_sub_cancel]
    exact List.take_left
  unfold First ways
  rw [hws, List.map_cons, htake]
  rfl

/-- One round, and then the others. -/
theorem starCons (h : First whole r s (g, t)) (hlt : t.length < s.length)
    (ht : First whole (.star r) t (g', u)) :
    First whole (.star r) s (g ++ g', u) := by
  obtain ⟨ws, hws⟩ := List.head?_eq_some_iff.mp h
  obtain ⟨n, hn⟩ : ∃ n, s.length = n + 1 := ⟨s.length - 1, by omega⟩
  unfold First ways at ht ⊢
  rw [rounds_eq _ (Nat.le_refl t.length) (by omega : t.length ≤ n)] at ht
  obtain ⟨ws', hws'⟩ := List.head?_eq_some_iff.mp ht
  rw [hn, rounds, hws, List.flatMap_cons, if_pos hlt, hws']
  rfl

/-- No round. -/
theorem starNil (h : ways whole r s = []) : First whole (.star r) s ([], s) := by
  unfold First ways
  cases hs : s.length with
  | zero => rfl
  | succ n =>
    rw [rounds, h]
    rfl

end First

section Chars

variable {whole : Text} {p : Char → Bool}

/-- A class does not match here. -/
def Ends (p : Char → Bool) (s : Text) : Prop := ∀ c ∈ s.head?, p c = false

theorem ways_char_of_ends {s : Text} (h : Ends p s) : ways whole (.char p) s = [] := by
  cases s with
  | nil => rfl
  | cons c s =>
    rw [ways, if_neg]
    rw [h c rfl]
    exact Bool.false_ne_true

/-- A repeated class takes all of its characters. -/
theorem first_chars : ∀ {w t : Text}, (∀ c ∈ w, p c = true) → Ends p t →
    First whole (.star (.char p)) (w ++ t) ([], t)
  | [], t, _, ht => .starNil (ways_char_of_ends ht)
  | c :: w, t, hw, ht => by
    have hc : First whole (.char p) (c :: (w ++ t)) ([], w ++ t) := .char (hw c List.mem_cons_self)
    exact hc.starCons (by simp) (first_chars (fun d hd => hw d (List.mem_cons_of_mem c hd)) ht)

theorem first_chars_plus {w t : Text} (hne : w ≠ []) (hw : ∀ c ∈ w, p c = true) (ht : Ends p t) :
    First whole (.plus (.char p)) (w ++ t) ([], t) := by
  obtain ⟨c, w, rfl⟩ := List.exists_cons_of_ne_nil hne
  have hc : First whole (.char p) (c :: (w ++ t)) ([], w ++ t) := .char (hw c List.mem_cons_self)
  exact hc.seq (first_chars (fun d hd => hw d (List.mem_cons_of_mem c hd)) ht)

end Chars

/-! ### A piece alone -/

/-- An expression without `$`. -/
def NoStop : Regex → Prop
  | .empty => True
  | .char _ => True
  | .stop => False
  | .seq r q => NoStop r ∧ NoStop q
  | .alt r q => NoStop r ∧ NoStop q
  | .star r => NoStop r
  | .group _ r => NoStop r

section Local

variable {whole whole' : Text} {tail : Text}

theorem local_rounds {f f' : Text → List Way} (hsuffix : ∀ s, ∀ m ∈ f s, m.2 <:+ s)
    (hlocal : ∀ (s t : Text) (g : Groups), (g, t ++ tail) ∈ f (s ++ tail) → (g, t) ∈ f' s) :
    ∀ (n : ℕ) (s t : Text) (g : Groups), (g, t ++ tail) ∈ rounds f n (s ++ tail) →
      (g, t) ∈ rounds f' n s
  | 0, s, t, g, h => by
    have heq := List.mem_singleton.mp h
    obtain ⟨rfl, ht⟩ := Prod.mk.inj heq
    rw [List.append_cancel_right ht]
    exact List.mem_singleton_self _
  | n + 1, s, t, g, h => by
    rcases mem_rounds_succ.mp h with ⟨g₁, t₁, g₂, h₁, hlt, h₂, hg⟩ | heq
    · obtain ⟨v, hv⟩ := suffix_rounds hsuffix n t₁ _ h₂
      have ht₁ : t₁ = v ++ t ++ tail := by rw [List.append_assoc]; exact hv.symm
      subst ht₁
      refine mem_rounds_succ.mpr (.inl ⟨g₁, v ++ t, g₂, hlocal s (v ++ t) g₁ h₁, ?_, ?_, hg⟩)
      · simp only [List.length_append] at hlt ⊢
        omega
      · exact local_rounds hsuffix hlocal n (v ++ t) t g₂ h₂
    · obtain ⟨rfl, ht⟩ := Prod.mk.inj heq
      rw [List.append_cancel_right ht]
      exact self_mem_rounds _ _ _

/-- What an expression takes of a text it also takes without the tail that it leaves. -/
theorem local_ways : ∀ {r : Regex}, NoStop r → ∀ (s t : Text) (g : Groups),
    (g, t ++ tail) ∈ ways whole r (s ++ tail) → (g, t) ∈ ways whole' r s
  | .empty, _, s, t, g, h => by
    obtain ⟨rfl, ht⟩ := Prod.mk.inj (List.mem_singleton.mp h)
    rw [List.append_cancel_right ht]
    exact List.mem_singleton_self _
  | .char p, _, s, t, g, h => by
    obtain ⟨c, hc, hg, hs⟩ := mem_char.mp h
    exact mem_char.mpr ⟨c, hc, hg, List.append_cancel_right hs⟩
  | .stop, hstop, _, _, _, _ => hstop.elim
  | .seq r q, hstop, s, t, g, h => by
    obtain ⟨g₁, t₁, g₂, h₁, h₂, hg⟩ := mem_seq.mp h
    obtain ⟨v, hv⟩ := suffix_ways q t₁ _ h₂
    have ht₁ : t₁ = v ++ t ++ tail := by rw [List.append_assoc]; exact hv.symm
    subst ht₁
    exact mem_seq.mpr ⟨g₁, v ++ t, g₂, local_ways hstop.1 s (v ++ t) g₁ h₁,
      local_ways hstop.2 (v ++ t) t g₂ h₂, hg⟩
  | .alt r q, hstop, s, t, g, h => by
    rcases mem_alt.mp h with h | h
    · exact mem_alt.mpr (.inl (local_ways hstop.1 s t g h))
    · exact mem_alt.mpr (.inr (local_ways hstop.2 s t g h))
  | .star r, hstop, s, t, g, h => by
    have hr : NoStop r := hstop
    have hn := local_rounds (suffix_ways r) (fun s t g h => local_ways hr s t g h) _ s t g h
    show (g, t) ∈ rounds (ways whole' r) s.length s
    rwa [rounds_eq _ (Nat.le_refl s.length) (by rw [List.length_append]; omega : s.length ≤
      (s ++ tail).length)]
  | .group n r, hstop, s, t, g, h => by
    obtain ⟨g₁, h₁, hg⟩ := mem_group.mp h
    obtain ⟨v, hv⟩ := suffix_ways r _ _ h₁
    have happend : v ++ t ++ tail = s ++ tail := by rw [List.append_assoc]; exact hv
    have hs : s = v ++ t := (List.append_cancel_right happend).symm
    have hr : NoStop r := hstop
    refine mem_group.mpr ⟨g₁, local_ways hr s t g₁ h₁, ?_⟩
    dsimp only at hg ⊢
    subst hs
    rw [hg, List.append_assoc, List.length_append, Nat.add_sub_cancel, List.take_left,
      List.length_append, Nat.add_sub_cancel, List.take_left]

end Local

/-! ### Cutting a text -/

section Find

variable {whole : Text} {r : Regex} {s t w : Text} {g : Groups}

theorem find_of_first (h : First whole r (w ++ t) (g, t)) :
    find whole r (w ++ t) = some (w, t) := by
  have htake : (w ++ t).take ((w ++ t).length - t.length) = w := by
    rw [List.length_append, Nat.add_sub_cancel]
    exact List.take_left
  unfold First at h
  rcases hs : w ++ t with _ | ⟨c, s⟩
  · rw [hs] at h htake
    obtain ⟨rfl, rfl⟩ := List.append_eq_nil_iff.mp hs
    rw [find, h]
    rfl
  · rw [hs] at h htake
    rw [find, h]
    dsimp only
    rw [htake]

theorem findAll_cons {n : ℕ} (h : First whole r (w ++ t) (g, t)) :
    findAll whole r (n + 1) (w ++ t) = w :: findAll whole r n t := by
  rw [findAll, find_of_first h]

/-- The first ways, one after the other. -/
inductive Cut (whole : Text) (r : Regex) : Text → List Text → Prop
  | nil {s : Text} (h : find whole r s = none) : Cut whole r s []
  | cons {w t : Text} {g : Groups} {ws : List Text} (hne : w ≠ [])
    (h : First whole r (w ++ t) (g, t))
      (ht : Cut whole r t ws) : Cut whole r (w ++ t) (w :: ws)

theorem Cut.length_le {ws : List Text} (h : Cut whole r s ws) : ws.length ≤ s.length := by
  induction h with
  | nil h => exact Nat.zero_le _
  | cons hne h ht ih =>
    have := List.length_pos_iff.mpr hne
    rw [List.length_cons, List.length_append]
    omega

theorem Cut.findAll {ws : List Text} (h : Cut whole r s ws) : ∀ {n : ℕ}, ws.length ≤ n →
    findAll whole r n s = ws := by
  induction h with
  | nil h =>
    intro n hn
    cases n with
    | zero => rfl
    | succ n => rw [Backtracking.findAll, h]
  | cons hne h ht ih =>
    intro n hn
    obtain ⟨k, rfl⟩ : ∃ k, n = k + 1 := ⟨n - 1, by rw [List.length_cons] at hn; omega⟩
    rw [findAll_cons h, ih (by rw [List.length_cons] at hn; omega)]

/-- A text is found as the pieces that it is cut into. -/
theorem Cut.findAllIn {ws : List Text} (h : Cut s r s ws) : findAllIn r s = ws :=
  h.findAll (Nat.le_succ_of_le h.length_le)

/-- What is found is a piece of the text that was matched. -/
theorem find_eq_some : ∀ {s : Text}, find whole r s = some (w, t) →
    ∃ pre g, s = pre ++ (w ++ t) ∧ (g, t) ∈ ways whole r (w ++ t)
  | [], h => by
    obtain ⟨m, hm, heq⟩ := Option.map_eq_some_iff.mp h
    obtain ⟨rfl, rfl⟩ := Prod.mk.inj heq
    have hmem := List.mem_of_head? hm
    have hnil : m = (m.1, []) := by rw [← List.suffix_nil.mp (suffix_ways r _ m hmem)]
    rw [hnil] at hmem ⊢
    exact ⟨[], m.1, rfl, hmem⟩
  | c :: s, h => by
    rw [find] at h
    split at h
    · next m hm =>
      obtain ⟨rfl, rfl⟩ := Prod.mk.inj (Option.some.inj h)
      have hmem := List.mem_of_head? hm
      obtain ⟨v, hv⟩ := suffix_ways r _ m hmem
      have htake : (c :: s).take ((c :: s).length - m.2.length) = v := by
        rw [← hv, List.length_append, Nat.add_sub_cancel]
        exact List.take_left
      rw [htake, hv]
      exact ⟨[], m.1, rfl, hmem⟩
    · obtain ⟨pre, g, hs, hmem⟩ := find_eq_some h
      exact ⟨c :: pre, g, by rw [hs]; rfl, hmem⟩

/-- Nothing is found in a text exactly when the expression matches at none of its rests. -/
theorem find_eq_none : ∀ {s : Text}, find whole r s = none ↔ ∀ t, t <:+ s → ways whole r t = []
  | [] => by
    rw [find, Option.map_eq_none_iff, List.head?_eq_none_iff]
    exact ⟨fun h t ht => by rw [List.suffix_nil.mp ht]; exact h, fun h =>
      h [] (List.suffix_refl [])⟩
  | c :: s => by
    rw [find]
    constructor
    · intro h t ht
      split at h
      · cases h
      · next hnone =>
        rcases List.suffix_cons_iff.mp ht with rfl | ht
        · exact List.head?_eq_none_iff.mp hnone
        · exact find_eq_none.mp h t ht
    · intro h
      rw [h (c :: s) (List.suffix_refl _)]
      exact find_eq_none.mpr fun t ht => h t (ht.trans (List.suffix_cons c s))

theorem fullMatch_of_first (h : First s r s (g, [])) : fullMatch r s = some g := by
  obtain ⟨ws, hws⟩ := List.head?_eq_some_iff.mp h
  unfold fullMatch
  rw [hws]
  rfl

theorem fullMatch_isSome (h : (g, []) ∈ ways s r s) : (fullMatch r s).isSome = true := by
  unfold fullMatch
  rw [Option.isSome_map, List.find?_isSome]
  exact ⟨_, h, rfl⟩

end Find

end ServeD.Lib.Backtracking
