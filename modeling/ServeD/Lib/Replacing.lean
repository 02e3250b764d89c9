import Mathlib.Data.List.Infix
import Mathlib.Logic.Function.Basic

/-! # Replacing all occurrences

`String.replace` on lists: the occurrences of a target are replaced from left to right, and what has
been put in is not looked at again.

* `replace_self`, `eq_of_replace_eq`: only a target that is its own replacement changes nothing;
* `replace_text`: in a text of single characters and holes, the holes of one kind are replaced if
  the target occurs nowhere else (`Only`);
* `Only.of_apart`: so it is whatever other holes have been replaced, if no value touches the target;
* `exists_parses`: if the targets do not overlap, a text can be taken apart;
* `Parses.dissolve`: so it can for some of the targets, if it can for all. -/

namespace ServeD.Lib.Replacing

variable {α : Type*} [DecidableEq α] {κ : Type*}

/-- The rest of a replacement, with some characters to be skipped first. -/
def replaceFrom (target value : List α) : ℕ → List α → List α
  | _, [] => []
  | k + 1, _ :: s => replaceFrom target value k s
  | 0, c :: s =>
    if target <+: c :: s then value ++ replaceFrom target value (target.length - 1) s
    else c :: replaceFrom target value 0 s

/-- `s.replace(target, value)` for a target that is not empty. -/
def replace (target value s : List α) : List α := replaceFrom target value 0 s

/-! ### Equations -/

section Equations

variable {target value s t x : List α} {c : α}

theorem replaceFrom_eq (k : ℕ) (s : List α) :
    replaceFrom target value k s = replace target value (s.drop k) := by
  induction s generalizing k with
  | nil => cases k <;> rfl
  | cons c s ih =>
    cases k with
    | zero => rfl
    | succ k => exact ih k

@[simp] theorem replace_nil : replace target value [] = [] := rfl

theorem replace_cons (h : ¬ target <+: c :: s) :
    replace target value (c :: s) = c :: replace target value s := by
  rw [replace, replaceFrom, if_neg h, replace]

theorem replace_target (hne : target ≠ []) (s : List α) :
    replace target value (target ++ s) = value ++ replace target value s := by
  obtain ⟨c, t, rfl⟩ := List.exists_cons_of_ne_nil hne
  have hpre : c :: t <+: c :: (t ++ s) := List.prefix_append (c :: t) s
  rw [List.cons_append, replace, replaceFrom, if_pos hpre, replaceFrom_eq]
  simp

/-- Where no occurrence begins. -/
theorem replace_append : ∀ {x : List α}, (∀ w, w ≠ [] → w <:+ x → ¬ target <+: w ++ s) →
    replace target value (x ++ s) = x ++ replace target value s
  | [], _ => rfl
  | c :: x, h => by
    have hpre : ¬ target <+: c :: (x ++ s) := h (c :: x) (List.cons_ne_nil c x) List.suffix_rfl
    rw [List.cons_append, replace_cons hpre,
      replace_append fun w hw hsuf => h w hw (hsuf.trans (List.suffix_cons c x))]
    rfl

/-- From occurrence to occurrence. -/
theorem replace_induction (hne : target ≠ []) {motive : List α → Prop} (nil : motive [])
    (found : ∀ s, motive s → motive (target ++ s)) (char : ∀ c s, ¬ target <+: c :: s → motive s →
      motive (c :: s))
    (s : List α) : motive s := by
  induction hn : s.length using Nat.strongRecOn generalizing s with
  | ind n ih =>
    rcases s with _ | ⟨c, s⟩
    · exact nil
    · by_cases h : target <+: c :: s
      · obtain ⟨t, ht⟩ := h
        have hpos := List.length_pos_iff.mpr hne
        have hlen := congrArg List.length ht
        rw [List.length_append] at hlen
        rw [← ht]
        exact found t (ih t.length (by omega) t rfl)
      · exact char c s h (ih s.length (by rw [← hn, List.length_cons]; omega) s rfl)

theorem replace_self (hne : target ≠ []) (s : List α) : replace target target s = s := by
  induction s using replace_induction hne with
  | nil => rfl
  | found s ih => rw [replace_target hne, ih]
  | char c s h ih => rw [replace_cons h, ih]

/-- Every occurrence changes the length by the same number. -/
theorem length_replace (hne : target ≠ []) (value s : List α) :
    ∃ m, (replace target value s).length + m * target.length = s.length + m * value.length ∧
      (target <:+: s → 0 < m) := by
  induction s using replace_induction hne with
  | nil =>
    refine ⟨0, by simp, fun h => absurd (List.infix_nil.mp h) hne⟩
  | found s ih =>
    obtain ⟨m, hm, -⟩ := ih
    refine ⟨m + 1, ?_, fun _ => Nat.succ_pos m⟩
    rw [replace_target hne, List.length_append, List.length_append, Nat.succ_mul, Nat.succ_mul]
    omega
  | char c s h ih =>
    obtain ⟨m, hm, hpos⟩ := ih
    refine ⟨m, ?_, fun hinfix => hpos ?_⟩
    · rw [replace_cons h, List.length_cons, List.length_cons]
      omega
    · exact (List.infix_cons_iff.mp hinfix).resolve_left h

/-- **A replacement that changes nothing** where there is something to replace. -/
theorem eq_of_replace_eq (hne : target ≠ []) (hocc : target <:+: s)
    (h : replace target value s = s) :
    value = target := by
  obtain ⟨m, hm, hpos⟩ := length_replace hne value s
  have hlen : target.length = value.length := by
    rw [h] at hm
    exact Nat.eq_of_mul_eq_mul_left (hpos hocc) (by omega)
  induction s with
  | nil => exact absurd (List.infix_nil.mp hocc) hne
  | cons c s ih =>
    by_cases hpre : target <+: c :: s
    · obtain ⟨t, ht⟩ := hpre
      rw [← ht, replace_target hne] at h
      exact (List.append_inj h hlen.symm).1
    · rw [replace_cons hpre] at h
      have hinfix := (List.infix_cons_iff.mp hocc).resolve_left hpre
      have htail := (List.cons.inj h).2
      exact ih hinfix htail (by rw [htail, hlen]) fun _ => hpos hocc

end Equations

/-! ### Texts with holes -/

/-- A character, or a hole. -/
inductive Piece (α κ : Type*) where
  | char (c : α)
  | hole (k : κ)

/-- The text with `f k` in the holes `k`. -/
def text (f : κ → List α) : List (Piece α κ) → List α
  | [] => []
  | .char c :: ps => c :: text f ps
  | .hole k :: ps => f k ++ text f ps

/-- The targets `P k` occur nowhere in the text but at the holes `k`. -/
def Only (P : κ → List α) (K : κ → Prop) (f : κ → List α) : List (Piece α κ) → Prop
  | [] => True
  | .char c :: ps => (∀ k, K k → ¬ P k <+: c :: text f ps) ∧ Only P K f ps
  | .hole i :: ps =>
    (∀ k, K k → ∀ w, w ≠ [] → w <:+ f i → (w = f i → k ≠ i) → ¬ P k <+: w ++ text f ps) ∧
      Only P K f ps

/-- The keys of the holes. -/
def HolesIn (K : κ → Prop) : List (Piece α κ) → Prop
  | [] => True
  | .char _ :: ps => HolesIn K ps
  | .hole i :: ps => K i ∧ HolesIn K ps

/-- One of the texts begins with the other. -/
def Meets (x y : List α) : Prop := x <+: y ∨ y <+: x

/-- An occurrence of `x` and one of `y` that begins in it, but not in the same place. -/
def Overlaps (x y : List α) : Prop := ∃ w, w ≠ [] ∧ w ≠ x ∧ w <:+ x ∧ Meets w y

/-- With some text around it, `v` can be in an occurrence of `x`, or `x` in `v`. -/
def Touches (v x : List α) : Prop :=
  (∃ w, w ≠ [] ∧ w <:+ v ∧ Meets w x) ∨ ∃ w, w ≠ [] ∧ w ≠ x ∧ w <:+ x ∧ Meets w v

section Pieces

variable {P f : κ → List α} {K : κ → Prop} {ps : List (Piece α κ)} {j : κ} {x y s : List α}

omit [DecidableEq α] in
theorem meets_of_prefix_append (h : x <+: y ++ s) : Meets x y :=
  List.prefix_or_prefix_of_prefix h (List.prefix_append y s)

omit [DecidableEq α] in
theorem Meets.symm (h : Meets x y) : Meets y x := Or.symm h

/-- **The holes of one key are filled**, if what they contain occurs nowhere else. -/
theorem replace_text [DecidableEq κ] (hne : P j ≠ []) (hj : f j = P j) (v : List α)
    (h : Only P (· = j) f ps) : replace (P j) v (text f ps) = text (Function.update f j v) ps := by
  induction ps with
  | nil => rfl
  | cons p ps ih =>
    rcases p with c | i
    · obtain ⟨hc, h⟩ := h
      rw [text, text, replace_cons (hc j rfl), ih h]
    · obtain ⟨hi, h⟩ := h
      rw [text, text]
      by_cases hij : i = j
      · subst hij
        rw [hj, replace_target hne, ih h, Function.update_self]
      · rw [replace_append fun w hw hsuf => hi j rfl w hw hsuf fun _ => Ne.symm hij, ih h,
          Function.update_of_ne hij]

omit [DecidableEq α] in
theorem text_congr {g : κ → List α} (hK : HolesIn K ps) (h : ∀ k, K k → f k = g k) :
    text f ps = text g ps := by
  induction ps with
  | nil => rfl
  | cons p ps ih =>
    rcases p with c | i
    · rw [text, text, ih hK]
    · rw [text, text, ih hK.2, h i hK.1]

omit [DecidableEq α] in
/-- What is left of a target, read over characters only, is in every text of these pieces. -/
theorem prefix_text {g : κ → List α} (hK : HolesIn K ps) (hg : ∀ i, K i → ∀ w, w ≠ [] → w <:+ y →
      ¬ Meets w (f i)) :
    ∀ {x : List α}, x <:+ y → x <+: text f ps → x <+: text g ps := by
  induction ps with
  | nil => exact fun _ hx => hx
  | cons p ps ih =>
    rcases p with c | i
    · rintro (_ | ⟨d, x⟩) hsuf hx
      · exact List.nil_prefix
      · obtain ⟨rfl, htail⟩ := List.cons_prefix_cons.mp hx
        exact List.cons_prefix_cons.mpr ⟨rfl, ih hK ((List.suffix_cons d x).trans hsuf) htail⟩
    · rintro x hsuf hx
      by_cases hnil : x = []
      · subst hnil
        exact List.nil_prefix
      · exact absurd (meets_of_prefix_append hx) (hg i hK.1 x hnil hsuf)

omit [DecidableEq α] in
/-- An occurrence that begins in some characters, whatever is in the holes behind them. -/
theorem prefix_append_text {g : κ → List α} {w : List α} (hK : HolesIn K ps) (hw : w ≠ [])
    (hg : ∀ i, K i → ∀ z, z ≠ [] → z ≠ x → z <:+ x → ¬ Meets z (f i)) (h : x <+: w ++ text f ps) :
    x <+: w ++ text g ps := by
  rcases meets_of_prefix_append h with hle | ⟨z, rfl⟩
  · exact hle.trans (List.prefix_append w _)
  · have hz : z <+: text f ps := (List.prefix_append_right_inj w).mp h
    have hproper : ∀ u, u <:+ z → u ≠ w ++ z := by
      rintro u hu rfl
      have hlen := hu.length_le
      have hpos := List.length_pos_iff.mpr hw
      rw [List.length_append] at hlen
      omega
    refine (List.prefix_append_right_inj w).mpr (prefix_text hK (y := z) ?_ List.suffix_rfl hz)
    exact fun i hi u hu hsuf => hg i hi u hu (hproper u hsuf) (hsuf.trans (List.suffix_append w z))

omit [DecidableEq α] in
/-- **No new occurrences**: the holes that are filled do not touch the target, and the others do not
overlap with it. -/
theorem Only.of_apart (hT : Only P K P ps) (hK : HolesIn K ps) (hj : K j) (hfj : f j = P j)
    (hover : ∀ i, K i → ¬ Overlaps (P j) (P i)) (hval : ∀ i, K i → i ≠ j → f i = P i ∨
      ¬ Touches (f i) (P j)) :
    Only P (· = j) f ps := by
  have hmeets : ∀ i, K i → ∀ z, z ≠ [] → z ≠ P j → z <:+ P j → ¬ Meets z (f i) := by
    intro i hi z hz hproper hsuf hmeets
    by_cases hij : i = j
    · rw [hij, hfj] at hmeets
      exact hover j hj ⟨z, hz, hproper, hsuf, hmeets⟩
    · rcases hval i hi hij with hfi | htouch
      · exact hover i hi ⟨z, hz, hproper, hsuf, hfi ▸ hmeets⟩
      · exact htouch (.inr ⟨z, hz, hproper, hsuf, hmeets⟩)
  induction ps with
  | nil => trivial
  | cons p ps ih =>
    rcases p with c | i
    · refine ⟨?_, ih hT.2 hK⟩
      rintro k rfl hpre
      exact hT.1 k hj (prefix_append_text (w := [c]) hK (List.cons_ne_nil c []) hmeets hpre)
    · refine ⟨?_, ih hT.2 hK.2⟩
      rintro k rfl w hw hsuf hwhole hpre
      have htemplate := prefix_append_text (g := P) hK.2 hw hmeets hpre
      by_cases hik : i = k
      · subst hik
        rw [hfj] at hsuf hwhole
        exact hT.1 i hj w hw hsuf hwhole htemplate
      · rcases hval i hK.1 hik with hfi | htouch
        · rw [hfi] at hsuf
          exact hT.1 k hj w hw hsuf (fun _ => Ne.symm hik) htemplate
        · exact htouch (.inl ⟨w, hw, hsuf, (meets_of_prefix_append hpre).symm⟩)

omit [DecidableEq α] in
theorem Only.mono {K' : κ → Prop} (hle : ∀ k, K' k → K k) (h : Only P K f ps) : Only P K' f ps := by
  induction ps with
  | nil => trivial
  | cons p ps ih =>
    rcases p with c | i
    · exact ⟨fun k hk => h.1 k (hle k hk), ih h.2⟩
    · exact ⟨fun k hk => h.1 k (hle k hk), ih h.2⟩

/-! ### Targets that do not overlap -/

/-- No two occurrences of the targets have a character in common. -/
def Apart (P : κ → List α) (K : κ → Prop) : Prop :=
  ∀ i k, K i → K k → ¬ Overlaps (P i) (P k) ∧ (i ≠ k → ¬ Meets (P i) (P k))

/-- The text is these pieces, and the targets occur nowhere else. -/
structure Parses (P : κ → List α) (K : κ → Prop) (ps : List (Piece α κ)) (s : List α) : Prop where
  holes : HolesIn K ps
  only : Only P K P ps
  text_eq : text P ps = s

omit [DecidableEq α] in
theorem Parses.char {c : α} (h : Parses P K ps s) (hc : ∀ k, K k → ¬ P k <+: c :: s) :
    Parses P K (.char c :: ps) (c :: s) := by
  obtain ⟨hholes, honly, rfl⟩ := h
  exact ⟨hholes, ⟨hc, honly⟩, rfl⟩

omit [DecidableEq α] in
theorem Parses.hole (h : Parses P K ps s) (hapart : Apart P K) (hj : K j) :
    Parses P K (.hole j :: ps) (P j ++ s) := by
  obtain ⟨hholes, honly, rfl⟩ := h
  refine ⟨⟨hj, hholes⟩, ⟨?_, honly⟩, rfl⟩
  intro k hk w hw hsuf hwhole hpre
  obtain ⟨hover, hstart⟩ := hapart j k hj hk
  have hmeets := (meets_of_prefix_append hpre).symm
  by_cases hwj : w = P j
  · exact hstart (Ne.symm (hwhole hwj)) (hwj ▸ hmeets)
  · exact hover ⟨w, hw, hwj, hsuf, hmeets⟩

omit [DecidableEq α] in
/-- **A text can be taken apart.** -/
theorem exists_parses (hne : ∀ k, K k → P k ≠ []) (hapart : Apart P K) (s : List α) :
    ∃ ps, Parses P K ps s := by
  induction hn : s.length using Nat.strongRecOn generalizing s with
  | ind n ih =>
    rcases s with _ | ⟨c, s⟩
    · exact ⟨[], trivial, trivial, rfl⟩
    · by_cases h : ∃ k, K k ∧ P k <+: c :: s
      · obtain ⟨k, hk, t, ht⟩ := h
        have hpos := List.length_pos_iff.mpr (hne k hk)
        have hlen := congrArg List.length ht
        rw [List.length_append] at hlen
        obtain ⟨ps, hps⟩ := ih t.length (by omega) t rfl
        rw [← ht]
        exact ⟨_, hps.hole hapart hk⟩
      · obtain ⟨ps, hps⟩ := ih s.length (by rw [← hn, List.length_cons]; omega) s rfl
        exact ⟨_, hps.char fun k hk hpre => h ⟨k, hk, hpre⟩⟩

omit [DecidableEq α] in
/-- A target at the beginning is a hole. -/
theorem Parses.head_hole (h : Parses P K ps (P j ++ s)) (hne : ∀ k, K k → P k ≠ []) (hj : K j) :
    ∃ ps', ps = .hole j :: ps' ∧ Parses P K ps' s := by
  obtain ⟨hholes, honly, htext⟩ := h
  rcases ps with _ | ⟨c | i, ps⟩
  · exact absurd (List.append_eq_nil_iff.mp htext.symm).1 (hne j hj)
  · exact absurd ⟨s, htext.symm⟩ (honly.1 j hj)
  · by_cases hij : j = i
    · subst hij
      exact ⟨ps, rfl, hholes.2, honly.2, List.append_cancel_left htext⟩
    · have hpre : P j <+: P i ++ text P ps := ⟨s, htext.symm⟩
      exact absurd hpre (honly.1 j hj (P i) (hne i hholes.1) List.suffix_rfl fun _ => hij)

omit [DecidableEq α] in
theorem Parses.unique {ps' : List (Piece α κ)} (hne : ∀ k, K k → P k ≠ []) (h : Parses P K ps s)
    (h' : Parses P K ps' s) : ps = ps' := by
  induction ps generalizing s ps' with
  | nil =>
    obtain rfl : [] = s := h.text_eq
    rcases ps' with _ | ⟨c | i, ps'⟩
    · rfl
    · cases h'.text_eq
    · exact absurd (List.append_eq_nil_iff.mp h'.text_eq).1 (hne i h'.holes.1)
  | cons p ps ih =>
    rcases p with c | i
    · obtain rfl : c :: text P ps = s := h.text_eq
      rcases ps' with _ | ⟨d | k, ps'⟩
      · cases h'.text_eq
      · obtain ⟨rfl, htext⟩ := List.cons.inj h'.text_eq
        have hps : Parses P K ps (text P ps) := ⟨h.holes, h.only.2, rfl⟩
        have hps' : Parses P K ps' (text P ps) := ⟨h'.holes, h'.only.2, htext⟩
        rw [ih hps hps']
      · exact absurd ⟨_, h'.text_eq⟩ (h.only.1 k h'.holes.1)
    · obtain rfl : P i ++ text P ps = s := h.text_eq
      obtain ⟨ps'', rfl, hparses⟩ := h'.head_hole hne h.holes.1
      rw [ih ⟨h.holes.2, h.only.2, rfl⟩ hparses]

omit [DecidableEq α] in
/-- **Every text can be taken apart** only if the targets do not overlap. -/
theorem apart_iff (hne : ∀ k, K k → P k ≠ []) : Apart P K ↔ ∀ s, ∃ ps, Parses P K ps s := by
  refine ⟨exists_parses hne, fun h i k hi hk => ⟨?_, ?_⟩⟩
  · rintro ⟨w, hw, hwi, hsuf, hmeets⟩
    obtain ⟨z, hz⟩ : ∃ z, P k <+: w ++ z := by
      rcases hmeets with ⟨z, hz⟩ | hle
      · exact ⟨z, hz ▸ List.prefix_rfl⟩
      · exact ⟨[], by rwa [List.append_nil]⟩
    obtain ⟨ps, hps⟩ := h (P i ++ z)
    obtain ⟨ps', rfl, hps'⟩ := hps.head_hole hne hi
    rw [← hps'.text_eq] at hz
    exact hps.only.1 k hk w hw hsuf (fun heq => absurd heq hwi) hz
  · intro hik hmeets
    obtain ⟨z, hz⟩ : ∃ z, P k <+: P i ++ z := by
      rcases hmeets with ⟨z, hz⟩ | hle
      · exact ⟨z, hz ▸ List.prefix_rfl⟩
      · exact ⟨[], by rwa [List.append_nil]⟩
    obtain ⟨ps, hps⟩ := h (P i ++ z)
    obtain ⟨ps', rfl, hps'⟩ := hps.head_hole hne hi
    rw [← hps'.text_eq] at hz
    exact hps.only.1 k hk (P i) (hne i hi) List.suffix_rfl (fun _ => Ne.symm hik) hz

/-! ### A hole in some text -/

/-- One hole between characters. -/
def around (pre post : List α) (k : κ) : List (Piece α κ) :=
  pre.map .char ++ .hole k :: post.map .char

omit [DecidableEq α] in
theorem text_chars (f : κ → List α) (pre : List α) (ps : List (Piece α κ)) :
    text f (pre.map .char ++ ps) = pre ++ text f ps := by
  induction pre with
  | nil => rfl
  | cons c pre ih =>
    rw [List.map_cons, List.cons_append, text, ih]
    rfl

omit [DecidableEq α] in
theorem text_around (f : κ → List α) (pre post : List α) (k : κ) :
    text f (around pre post k) = pre ++ (f k ++ post) := by
  have hpost : text f (post.map .char) = post := by
    have h := text_chars f post []
    rwa [List.append_nil, text, List.append_nil] at h
  rw [around, text_chars, text, hpost]

omit [DecidableEq α] in
theorem Parses.chars (pre : List α) (h : Parses P K ps s)
    (hpre : ∀ w, w ≠ [] → w <:+ pre → ∀ k, K k → ¬ P k <+: w ++ s) :
    Parses P K (pre.map .char ++ ps) (pre ++ s) := by
  induction pre with
  | nil => exact h
  | cons c pre ih =>
    have htail := ih fun w hw hsuf => hpre w hw (hsuf.trans (List.suffix_cons c pre))
    exact htail.char fun k hk => hpre (c :: pre) (List.cons_ne_nil c pre) List.suffix_rfl k hk

/-- The holes of other kinds are characters. -/
def dissolve (P : κ → List α) (K : κ → Prop) [DecidablePred K] : List (Piece α κ) → List (Piece α κ)
  | [] => []
  | .char c :: ps => .char c :: dissolve P K ps
  | .hole i :: ps => if K i then .hole i :: dissolve P K ps else (P i).map .char ++ dissolve P K ps

omit [DecidableEq α] in
theorem text_dissolve [DecidablePred K] (f : κ → List α) (ps : List (Piece α κ)) :
    text f (dissolve P K ps) = text (fun k => if K k then f k else P k) ps := by
  induction ps with
  | nil => rfl
  | cons p ps ih =>
    rcases p with c | i
    · rw [dissolve, text, text, ih]
    · rw [dissolve, text]
      by_cases hi : K i
      · rw [if_pos hi, if_pos hi, text, ih]
      · rw [if_neg hi, if_neg hi, text_chars, ih]

omit [DecidableEq α] in
/-- **A text is taken apart for some of the targets** as it is for all of them. -/
theorem Parses.dissolve {K' : κ → Prop} [DecidablePred K'] (hle : ∀ k, K' k → K k)
    (h : Parses P K ps s) :
    Parses P K' (dissolve P K' ps) s := by
  induction ps generalizing s with
  | nil =>
    obtain rfl : [] = s := h.text_eq
    exact ⟨trivial, trivial, rfl⟩
  | cons p ps ih =>
    rcases p with c | i
    · obtain rfl : c :: text P ps = s := h.text_eq
      exact (ih ⟨h.holes, h.only.2, rfl⟩).char fun k hk => h.only.1 k (hle k hk)
    · obtain rfl : P i ++ text P ps = s := h.text_eq
      have htail := ih ⟨h.holes.2, h.only.2, rfl⟩
      rw [Replacing.dissolve]
      by_cases hi : K' i
      · rw [if_pos hi]
        refine ⟨⟨hi, htail.holes⟩, ⟨fun k hk w hw hsuf hwhole => ?_, htail.only⟩, ?_⟩
        · rw [htail.text_eq]
          exact h.only.1 k (hle k hk) w hw hsuf hwhole
        · rw [text, htail.text_eq]
      · rw [if_neg hi]
        refine htail.chars (P i) fun w hw hsuf k hk => h.only.1 k (hle k hk) w hw hsuf fun _ => ?_
        rintro rfl
        exact hi hk

omit [DecidableEq α] in
/-- A part of a target around another one. -/
theorem Parses.around (hapart : Apart P K) {i : κ} (hi : K i) (hj : K j) {pre post y z : List α}
    (hpre : pre ++ y = P j) (hy : y ≠ []) (hpost : z ++ post = P j) (hz : z ≠ []) :
    Parses P K (around pre post i) (pre ++ (P i ++ post)) := by
  have hempty : Parses P K ([] : List (Piece α κ)) [] := ⟨trivial, trivial, rfl⟩
  have hbehind : Parses P K (post.map .char) post := by
    have h := hempty.chars post ?_
    · rwa [List.append_nil, List.append_nil] at h
    · intro w hw hsuf k hk hle
      rw [List.append_nil] at hle
      refine (hapart j k hj hk).1 ⟨w, hw, ?_, hsuf.trans ⟨z, hpost⟩, .inr hle⟩
      rintro rfl
      have hlen := hsuf.length_le
      have hpos := List.length_pos_iff.mpr hz
      rw [← hpost, List.length_append] at hlen
      omega
  refine (hbehind.hole hapart hi).chars pre ?_
  rintro w hw ⟨a, rfl⟩ k hk hle
  have hsuf : w ++ y <:+ P j := ⟨a, by rw [← hpre, List.append_assoc]⟩
  have hcases : P k <+: w ∨ ∃ u, u ≠ [] ∧ w ++ u = P k := by
    rcases meets_of_prefix_append hle with hin | ⟨u, hu⟩
    · exact .inl hin
    · by_cases hnil : u = []
      · exact .inl (by rw [← hu, hnil, List.append_nil])
      · exact .inr ⟨u, hnil, hu⟩
  rcases hcases with hin | ⟨u, hnil, hu⟩
  · by_cases hwhole : w ++ y = P j
    · by_cases hjk : j = k
      · subst hjk
        have hlen := hin.length_le
        have hpos := List.length_pos_iff.mpr hy
        rw [← hwhole, List.length_append] at hlen
        omega
      · exact (hapart j k hj hk).2 hjk (hwhole ▸ .inr (hin.trans (List.prefix_append w y)))
    · refine (hapart j k hj hk).1 ⟨w ++ y, ?_, hwhole, hsuf,
        .inr (hin.trans (List.prefix_append w y))⟩
      exact fun hnil => hw (List.append_eq_nil_iff.mp hnil).1
  · rw [← hu] at hle
    have hmeets := meets_of_prefix_append ((List.prefix_append_right_inj w).mp hle)
    refine (hapart k i hk hi).1 ⟨u, hnil, ?_, ⟨w, hu⟩, hmeets⟩
    rintro rfl
    have hlen := congrArg List.length hu
    have hpos := List.length_pos_iff.mpr hw
    rw [List.length_append] at hlen
    omega

omit [DecidableEq α] in
/-- **A value that touches a target** does so in some text. -/
theorem Touches.exists_around (hapart : Apart P K) {i : κ} (hi : K i) (hj : K j)
    (hne : P j ≠ []) {v : List α} (h : Touches v (P j)) :
    ∃ pre post, Parses P K (Replacing.around pre post i) (pre ++ (P i ++ post)) ∧
      P j <:+: pre ++ (v ++ post) := by
  have hnil : ∀ post z : List α, z ++ post = P j → z ≠ [] →
      Parses P K (Replacing.around [] post i) ([] ++ (P i ++ post)) := fun post z hz hz' =>
    Parses.around hapart hi hj (List.nil_append _) hne hz hz'
  rcases h with ⟨w, hw, ⟨x, rfl⟩, ⟨post, hpost⟩ | ⟨y, hy⟩⟩ |
    ⟨w, hw, hwj, ⟨pre, hpre⟩, ⟨post, hpost⟩ | ⟨y, hy⟩⟩
  · exact ⟨[], post, hnil post w hpost hw, x, [], by simp [← hpost]⟩
  · exact ⟨[], [], hnil [] (P j) (List.append_nil _) hne, x, y, by simp [← hy]⟩
  · exact ⟨pre, [], Parses.around hapart hi hj hpre hw (List.append_nil _) hne, [],
      post, by simp [← hpre, ← hpost]⟩
  · have hpre' : pre ≠ [] := by
      rintro rfl
      exact hwj hpre
    have hz : (pre ++ v) ++ y = P j := by rw [List.append_assoc, hy, hpre]
    have hz' : pre ++ v ≠ [] := fun heq => hpre' (List.append_eq_nil_iff.mp heq).1
    exact ⟨pre, y, Parses.around hapart hi hj hpre hw hz hz', [], [], by simp [hy, hpre]⟩

end Pieces

end ServeD.Lib.Replacing
