import ServeD.Lib.Replacing
import ServeD.Lib.Texts
import Mathlib.Algebra.Order.Ring.Nat
import Mathlib.Data.List.Nodup

/-! # Templates

`repl4str.%`, a fold over the arguments that looks at what earlier arguments have put in: a pair
replaces its placeholder everywhere, any other value the first percent sign, where `replaceFirst`
reads a dollar sign and a backslash as its own.

* `chosen_iff`: with which pairs a template comes out right, for all of them or some, in every
  order;
* `named_iff`: with which pairs every template does;
* `beginnings_iff`: with which values a template comes out right, for all of them or the first ones;
* `positional_iff`: with which values every template does;
* `substitutes_iff`: all of it. -/

namespace ServeD.Utils.Templates

open ServeD.Lib.Texts ServeD.Lib.Replacing

/-! ### The source -/

inductive Arg where
  | pair (key value : Text)
  | value (value : Text)
  deriving DecidableEq, Repr

/-- `"%{" + key + "}"` -/
def placeholder (key : Text) : Text := '%' :: '{' :: (key ++ ['}'])

/-- What `appendReplacement` makes of a replacement if the pattern is a percent sign without groups;
after `$0` more zeros belong to the number of the group. -/
def expandFrom : Bool → Text → Option Text
  | _, [] => some []
  | zeros, [c] => if zeros && c == '0' then some [] else if c = '\\' ∨
    c = '$' then none else some [c]
  | zeros, c :: d :: s =>
    if zeros && c == '0' then expandFrom true (d :: s)
    else if c = '\\' then (expandFrom false s).map (d :: ·)
    else if c = '$' then if d = '0' then (expandFrom true s).map ('%' :: ·) else none
    else (expandFrom false (d :: s)).map (c :: ·)

def expand (replacement : Text) : Option Text := expandFrom false replacement

/-- The first percent sign is replaced. -/
def putFirst (e : Text) : Text → Text
  | [] => []
  | c :: s => if c = '%' then e ++ s else c :: putFirst e s

/-- `s.replaceFirst("%", replacement)` -/
def replaceFirst (replacement s : Text) : Option Text :=
  if '%' ∈ s then (expand replacement).map fun e => putFirst e s else some s

def step (s : Text) : Arg → Option Text
  | .pair key value => some (replace (placeholder key) value s)
  | .value value => replaceFirst value s

/-- `template % (args)` -/
def percent (template : Text) (args : List Arg) : Option Text := args.foldlM step template

/-! ### What was meant -/

/-- Pairs with different keys. -/
structure NamedArgs where
  pairs : List (Text × Text)
  distinct : (pairs.map Prod.fst).Nodup

def target (a : Text × Text) : Text := placeholder a.1

def named (pairs : List (Text × Text)) : List Arg := pairs.map fun a => .pair a.1 a.2

/-- **Each occurrence of a placeholder is replaced by its value, and nothing else**,
in any order of the arguments. -/
def RightNamed (args : NamedArgs) (template : Text) : Prop :=
  ∃ ps, Parses target (· ∈ args.pairs) ps template ∧
    ∀ order, order.Perm args.pairs → percent template (named order) = some (text Prod.snd ps)

/-- What is in the holes when some pairs have been replaced. -/
def filled (done : List (Text × Text)) (a : Text × Text) : Text :=
  if a ∈ done then a.2 else target a

/-- The placeholders do not overlap in the template, and when the values of any pairs are in it, to
replace another one fills the holes of this pair and changes nothing else. -/
def InPlace (args : NamedArgs) (template : Text) : Prop :=
  ∃ ps, Parses target (· ∈ args.pairs) ps template ∧
    ∀ done b, (done ++ [b]).Nodup → (∀ a ∈ done ++ [b], a ∈ args.pairs) →
      replace (target b) b.2 (text (filled done) ps) = text (filled (done ++ [b])) ps

/-- The template with its percent signs replaced by the arguments, one by one. -/
def fill : Text → List Text → Text
  | [], _ => []
  | c :: s, [] => c :: s
  | c :: s, a :: as => if c = '%' then a ++ fill s as else c :: fill s (a :: as)

/-- **The percent signs are replaced by the arguments as they are**. -/
def RightPositional (args : List Text) (template : Text) : Prop :=
  percent template (args.map .value) = some (fill template args)

/-- The placeholders do not overlap, and no value touches the placeholder of another pair, unless
that is its own value. -/
structure Separate (args : NamedArgs) : Prop where
  apart : Apart target (· ∈ args.pairs)
  untouched : ∀ a ∈ args.pairs, ∀ b ∈ args.pairs, a ≠ b → b.2 = target b ∨ ¬ Touches a.2 (target b)

/-- Nothing that `replaceFirst` reads as its own. -/
def Plain (a : Text) : Prop := '$' ∉ a ∧ '\\' ∉ a

/-- The values are plain, and when some of them are in the template, the next one goes to the next
percent sign of the template itself, or the same comes out. -/
def InTurn (args : List Text) (template : Text) : Prop :=
  ∀ before a after, args = before ++ a :: after →
    Plain a ∧ putFirst a (fill template before) = fill template (before ++ [a])

/-- The arguments are plain, and behind one with a percent sign there are percent signs only. -/
structure Literal (args : List Text) : Prop where
  plain : ∀ a ∈ args, Plain a
  signs : args.Pairwise fun a b => '%' ∈ a → b = ['%']

/-! ### Pairs -/

section Pairs

theorem target_ne_nil (a : Text × Text) : target a ≠ [] := List.cons_ne_nil _ _

variable {args : NamedArgs} {ps : List (Piece Char (Text × Text))} {template : Text}

theorem NamedArgs.nodup (args : NamedArgs) : args.pairs.Nodup :=
  List.Nodup.of_map Prod.fst args.distinct

theorem update_filled {done : List (Text × Text)} (b : Text × Text) :
    Function.update (filled done) b b.2 = filled (done ++ [b]) := by
  funext a
  by_cases hab : a = b
  · subst hab
    rw [Function.update_self, filled, if_pos (by simp)]
  · rw [Function.update_of_ne hab, filled, filled]
    simp [hab]

/-- **One pair**: its holes are filled. -/
theorem replace_filled (hseparate : Separate args)
    (hps : Parses target (· ∈ args.pairs) ps template) {done : List (Text × Text)} {b : Text × Text}
    (hb : b ∈ args.pairs) (hnew : b ∉ done) :
    replace (target b) b.2 (text (filled done) ps) = text (filled (done ++ [b])) ps := by
  have hfb : filled done b = target b := if_neg hnew
  by_cases hself : b.2 = target b
  · rw [← update_filled, hself, replace_self (target_ne_nil b), ← hfb, Function.update_eq_self]
  · have honly : Only target (· = b) (filled done) ps := by
      refine hps.only.of_apart hps.holes hb hfb (fun i hi => (hseparate.apart b i hb hi).1)
        fun i hi hib => ?_
      by_cases hdone : i ∈ done
      · rw [filled, if_pos hdone]
        exact .inr ((hseparate.untouched i hi b hb hib).resolve_left hself)
      · exact .inl (if_neg hdone)
    rw [replace_text (target_ne_nil b) hfb b.2 honly, update_filled]

/-- With separate pairs every template is in place. -/
theorem Separate.inPlace (hseparate : Separate args) (template : Text) : InPlace args template := by
  obtain ⟨ps, hps⟩ := exists_parses (fun a _ => target_ne_nil a) hseparate.apart template
  refine ⟨ps, hps, fun done b hnodup hmem => ?_⟩
  have hnew : b ∉ done := fun hdone => (List.nodup_append.mp hnodup).2.2 b hdone b
    List.mem_cons_self rfl
  exact replace_filled hseparate hps (hmem b (by simp)) hnew

/-- The pairs one after the other. -/
theorem percent_filled (hplace : ∀ done b, (done ++ [b]).Nodup →
      (∀ a ∈ done ++ [b], a ∈ args.pairs) →
      replace (target b) b.2 (text (filled done) ps) = text (filled (done ++ [b])) ps) :
    ∀ (order done : List (Text × Text)), (done ++ order).Nodup →
      (∀ a ∈ done ++ order, a ∈ args.pairs) →
      percent (text (filled done) ps) (named order) = some (text (filled (done ++ order)) ps)
  | [], done, _, _ => by
    rw [List.append_nil]
    rfl
  | b :: order, done, hnodup, hmem => by
    have hsplit : done ++ b :: order = (done ++ [b]) ++ order := by
      rw [List.append_assoc, List.singleton_append]
    rw [hsplit] at hnodup hmem
    have ih := percent_filled hplace order (done ++ [b]) hnodup hmem
    have hstep := hplace done b hnodup.of_append_left fun a ha =>
      hmem a (List.mem_append_left order ha)
    rw [hsplit, ← ih, ← hstep]
    rfl

theorem filled_nil_text (hps : Parses target (· ∈ args.pairs) ps template) :
    text (filled []) ps = template := by
  rw [← hps.text_eq]
  exact text_congr hps.holes fun a _ => if_neg List.not_mem_nil

/-- What is to come out for some of the pairs, from the pieces for all of them. -/
theorem rightNamed_iff {chosen : NamedArgs} (hps : Parses target (· ∈ args.pairs) ps template)
    (hchosen : ∀ a ∈ chosen.pairs, a ∈ args.pairs) : RightNamed chosen template ↔
      ∀ order, order.Perm chosen.pairs → percent template (named order) =
        some (text (filled order) ps) := by
  have hparses := hps.dissolve hchosen
  have htext : ∀ order, order.Perm chosen.pairs →
      text Prod.snd (dissolve target (· ∈ chosen.pairs) ps) = text (filled order) ps := by
    intro order hperm
    rw [text_dissolve]
    refine text_congr hps.holes fun a _ => ?_
    unfold filled
    simp only [hperm.mem_iff]
  constructor
  · rintro ⟨ps', hps', h⟩ order hperm
    obtain rfl := hps'.unique (fun a _ => target_ne_nil a) hparses
    rw [h order hperm, htext order hperm]
  · intro h
    refine ⟨_, hparses, fun order hperm => ?_⟩
    rw [h order hperm, htext order hperm]

/-- **A template comes out right with any of the pairs**, in any order,
exactly if each pair is put in its place. -/
theorem chosen_iff (args : NamedArgs) (template : Text) :
    (∀ chosen : NamedArgs, (∀ a ∈ chosen.pairs, a ∈ args.pairs) → RightNamed chosen template) ↔
      InPlace args template := by
  constructor
  · intro h
    obtain ⟨ps, hps, -⟩ := h args fun a ha => ha
    have hrun : ∀ order : List (Text × Text), order.Nodup → (∀ a ∈ order, a ∈ args.pairs) →
        percent template (named order) = some (text (filled order) ps) := by
      intro order hnodup hmem
      have hdistinct : (order.map Prod.fst).Nodup := by
        refine hnodup.map_on fun a ha b hb heq => ?_
        exact List.inj_on_of_nodup_map args.distinct (hmem a ha) (hmem b hb) heq
      exact (rightNamed_iff hps hmem).mp (h ⟨order, hdistinct⟩ hmem) order (List.Perm.refl order)
    refine ⟨ps, hps, fun done b hnodup hmem => ?_⟩
    have hdone := hrun done hnodup.of_append_left fun a ha => hmem a (List.mem_append_left [b] ha)
    have hboth := hrun (done ++ [b]) hnodup hmem
    rw [named, List.map_append, percent, List.foldlM_append] at hboth
    change (percent template (named done)).bind (fun s => some (replace (target b) b.2 s)) =
      _ at hboth
    rw [hdone] at hboth
    exact Option.some.inj hboth
  · rintro ⟨ps, hps, hplace⟩ chosen hchosen
    refine (rightNamed_iff hps hchosen).mpr fun order hperm => ?_
    have hrun := percent_filled hplace order [] (hperm.nodup_iff.mpr chosen.nodup) fun a ha =>
      hchosen a (hperm.mem_iff.mp ha)
    rwa [filled_nil_text hps] at hrun

theorem InPlace.right (h : InPlace args template) : RightNamed args template :=
  (chosen_iff args template).mpr h args fun _ ha => ha

/-- One pair only needs placeholders that do not overlap. -/
theorem InPlace.one {b : Text × Text} (hargs : args.pairs = [b])
    (hps : Parses target (· ∈ args.pairs) ps template) :
    InPlace args template := by
  refine ⟨ps, hps, fun done b' hnodup hmem => ?_⟩
  have hone : ∀ a ∈ done ++ [b'], a = b := fun a ha => List.mem_singleton.mp (hargs ▸ hmem a ha)
  obtain rfl := hone b' (by simp)
  rcases done with _ | ⟨a, done⟩
  · have hnone : filled [] = target := funext fun a => if_neg List.not_mem_nil
    have honly : Only target (· = b') target ps :=
      hps.only.mono fun k hk => hk ▸ hmem b' List.mem_cons_self
    rw [← update_filled, hnone]
    exact replace_text (target_ne_nil b') rfl b'.2 honly
  · obtain rfl := hone a List.mem_cons_self
    exact absurd (List.nodup_cons.mp hnodup).1 (by simp)

/-- Without placeholders there is nothing to put in. -/
theorem InPlace.none (h : ∀ a ∈ args.pairs, ¬ target a <:+: template) : InPlace args template := by
  have hchars : ∀ s : Text, s <:+ template →
      Parses target (· ∈ args.pairs) (s.map Piece.char) s ∧
        ∀ f : Text × Text → Text, text f (s.map Piece.char) = s ∧
          ∀ b ∈ args.pairs, replace (target b) b.2 s = s := by
    intro s
    induction s with
    | nil => exact fun _ => ⟨⟨trivial, trivial, rfl⟩, fun _ => ⟨rfl, fun _ _ => rfl⟩⟩
    | cons c s ih =>
      intro hsuf
      obtain ⟨hps, hall⟩ := ih ((List.suffix_cons c s).trans hsuf)
      have hno : ∀ b ∈ args.pairs, ¬ target b <+: c :: s :=
        fun b hb hpre => h b hb (hpre.isInfix.trans hsuf.isInfix)
      refine ⟨hps.char hno, fun f => ⟨congrArg (c :: ·) (hall f).1, fun b hb => ?_⟩⟩
      rw [replace_cons (hno b hb), (hall f).2 b hb]
  obtain ⟨hps, hall⟩ := hchars template List.suffix_rfl
  refine ⟨template.map Piece.char, hps, fun done b _ hmem => ?_⟩
  rw [(hall (filled done)).1, (hall (filled (done ++ [b]))).1]
  exact (hall target).2 b (hmem b (by simp))

/-- **With separate pairs every template comes out right.** -/
theorem Separate.right (hseparate : Separate args) (template : Text) : RightNamed args template :=
  (hseparate.inPlace template).right

theorem percent_append (template : Text) (first second : List Arg) :
    percent template (first ++ second) = (percent template first).bind fun s => percent s second :=
  List.foldlM_append

/-- A pair whose placeholder is not in the text changes nothing. -/
theorem percent_others {s : Text} :
    ∀ {order : List (Text × Text)}, (∀ o ∈ order, replace (target o) o.2 s = s) →
    percent s (named order) = some s
  | [], _ => rfl
  | o :: order, h => by
    have ih : percent s (named order) = some s := percent_others fun c hc =>
      h c (List.mem_cons_of_mem o hc)
    rw [← ih]
    change percent (replace (target o) o.2 s) (named order) = _
    rw [h o List.mem_cons_self]

/-- **A value that touches the placeholder of another pair** spoils some template in some order. -/
theorem eq_target_of_right (h : ∀ template, RightNamed args template)
    (hapart : Apart target (· ∈ args.pairs)) {a b : Text × Text} (ha : a ∈ args.pairs)
    (hb : b ∈ args.pairs) (hab : a ≠ b) (htouch : Touches a.2 (target b)) :
    b.2 = target b := by
  obtain ⟨pre, post, hps, hocc⟩ := htouch.exists_around hapart ha hb (target_ne_nil b)
  obtain ⟨ps, hps', horders⟩ := h (pre ++ (target a ++ post))
  obtain rfl := hps'.unique (fun c _ => target_ne_nil c) hps
  -- the other pairs first, then `a`, and `b` at the end
  have hb' : b ∈ args.pairs.erase a := (List.mem_erase_of_ne (Ne.symm hab)).mpr hb
  have hperm : ((args.pairs.erase a).erase b ++ [a, b]).Perm args.pairs :=
    List.perm_append_comm.trans (((List.perm_cons_erase hb').symm.cons a).trans
      (List.perm_cons_erase ha).symm)
  have hrun := horders _ hperm
  have honly : ∀ k, k ∈ args.pairs → Only target (· = k) target (around pre post a) := fun k hk =>
    hps.only.mono fun i hi => hi ▸ hk
  have hothers : percent (pre ++ (target a ++ post)) (named ((args.pairs.erase a).erase b)) =
      some (pre ++ (target a ++ post)) := by
    refine percent_others fun o ho => ?_
    have hmem : o ∈ args.pairs := List.mem_of_mem_erase (List.mem_of_mem_erase ho)
    have hoa : a ≠ o := by
      rintro rfl
      exact (args.nodup.not_mem_erase) (List.mem_of_mem_erase ho)
    have hreplace := replace_text (target_ne_nil o) rfl o.2 (honly o hmem)
    rwa [text_around, text_around, Function.update_of_ne hoa] at hreplace
  have hreplace := replace_text (target_ne_nil a) rfl a.2 (honly a ha)
  rw [text_around, text_around, Function.update_self] at hreplace
  have hlast : percent (pre ++ (target a ++ post)) (named [a, b]) =
      some (replace (target b) b.2 (pre ++ (a.2 ++ post))) := by
    rw [← hreplace]
    rfl
  rw [named, List.map_append, percent_append] at hrun
  change (percent _ (named _)).bind (fun s => percent s (named [a, b])) = _ at hrun
  rw [hothers, Option.bind_some, hlast, text_around] at hrun
  exact eq_of_replace_eq (target_ne_nil b) hocc (Option.some.inj hrun)

/-- **Pairs are replaced as they should be** in every template exactly if they are separate. -/
theorem named_iff (args : NamedArgs) : (∀ template, RightNamed args template) ↔ Separate args := by
  constructor
  · intro h
    have hapart : Apart target (· ∈ args.pairs) :=
      (apart_iff fun a _ => target_ne_nil a).mpr fun s => (h s).imp fun ps hps => hps.1
    refine ⟨hapart, fun a ha b hb hab => ?_⟩
    by_cases htouch : Touches a.2 (target b)
    · exact .inl (eq_target_of_right h hapart ha hb hab htouch)
    · exact .inr htouch
  · exact fun hseparate template => hseparate.right template

end Pairs

/-! ### Values -/

section Values

variable {a e s t : Text} {as : List Text}

theorem plain_cons {c : Char} : Plain (c :: s) ↔ c ≠ '$' ∧ c ≠ '\\' ∧ Plain s := by
  simp only [Plain, List.mem_cons, not_or]
  constructor
  · rintro ⟨⟨hd, hs⟩, hb, hs'⟩
    exact ⟨Ne.symm hd, Ne.symm hb, hs, hs'⟩
  · rintro ⟨hd, hb, hs, hs'⟩
    exact ⟨⟨Ne.symm hd, hs⟩, Ne.symm hb, hs'⟩

/-- **What `replaceFirst` puts in is not longer**, and shorter unless the replacement is plain. -/
theorem length_expandFrom : ∀ {zeros : Bool} {s e : Text}, expandFrom zeros s = some e →
    e.length < s.length ∨ e = s ∧ Plain s
  | _, [], e, h => by
    obtain rfl := Option.some.inj h
    exact .inr ⟨rfl, List.not_mem_nil, List.not_mem_nil⟩
  | zeros, [c], e, h => by
    rw [expandFrom] at h
    split_ifs at h with hzero hspecial
    · cases h
      exact .inl Nat.one_pos
    · cases h
      obtain ⟨hb, hd⟩ := not_or.mp hspecial
      exact .inr ⟨rfl, plain_cons.mpr ⟨hd, hb, List.not_mem_nil, List.not_mem_nil⟩⟩
  | zeros, c :: d :: s, e, h => by
    rw [expandFrom] at h
    split_ifs at h with hzero hback hdollar hd
    · have hle := length_expandFrom h
      left
      rcases hle with hlt | ⟨rfl, -⟩ <;> simp only [List.length_cons] at * <;> omega
    · obtain ⟨e', he', rfl⟩ := Option.map_eq_some_iff.mp h
      left
      rcases length_expandFrom he' with hlt | ⟨rfl, -⟩ <;> simp only [List.length_cons] <;> omega
    · obtain ⟨e', he', rfl⟩ := Option.map_eq_some_iff.mp h
      left
      rcases length_expandFrom he' with hlt | ⟨rfl, -⟩ <;> simp only [List.length_cons] <;> omega
    · obtain ⟨e', he', rfl⟩ := Option.map_eq_some_iff.mp h
      rcases length_expandFrom he' with hlt | ⟨rfl, hplain⟩
      · exact .inl (Nat.succ_lt_succ hlt)
      · exact .inr ⟨rfl, plain_cons.mpr ⟨hdollar, hback, hplain⟩⟩

theorem expandFrom_plain : ∀ {s : Text}, Plain s → expandFrom false s = some s
  | [], _ => rfl
  | [c], h => by
    obtain ⟨hd, hb, -⟩ := plain_cons.mp h
    simp [expandFrom, hd, hb]
  | c :: d :: s, h => by
    obtain ⟨hd, hb, h⟩ := plain_cons.mp h
    simp [expandFrom, hd, hb, expandFrom_plain h]

/-! What one replacement does to the text. -/

theorem putFirst_of_not_mem (h : '%' ∉ s) : putFirst e s = s := by
  induction s with
  | nil => rfl
  | cons c s ih =>
    obtain ⟨hc, hs⟩ := not_or.mp (mt List.mem_cons.mpr h)
    rw [putFirst, if_neg (Ne.symm hc), ih hs]

theorem putFirst_append (h : '%' ∉ s) (t : Text) : putFirst e (s ++ t) = s ++ putFirst e t := by
  induction s with
  | nil => rfl
  | cons c s ih =>
    obtain ⟨hc, hs⟩ := not_or.mp (mt List.mem_cons.mpr h)
    rw [List.cons_append, putFirst, if_neg (Ne.symm hc), ih hs]
    rfl

theorem putFirst_append_left (h : '%' ∈ s) (t : Text) :
    putFirst e (s ++ t) = putFirst e s ++ t := by
  induction s with
  | nil => cases h
  | cons c s ih =>
    rw [List.cons_append, putFirst, putFirst]
    by_cases hc : c = '%'
    · rw [if_pos hc, if_pos hc, List.append_assoc]
    · rw [if_neg hc, if_neg hc, ih ((List.mem_cons.mp h).resolve_left (Ne.symm hc)),
        List.cons_append]

theorem putFirst_sign (s : Text) : putFirst ['%'] s = s := by
  induction s with
  | nil => rfl
  | cons c s ih =>
    rw [putFirst]
    split
    · rename_i hc
      rw [hc]
      rfl
    · rw [ih]

theorem length_putFirst (h : '%' ∈ s) : (putFirst e s).length + 1 = s.length + e.length ∧
    s.count '%' ≤ (putFirst e s).count '%' + 1 := by
  induction s with
  | nil => cases h
  | cons c s ih =>
    rw [putFirst]
    by_cases hc : c = '%'
    · rw [if_pos hc, hc, List.length_append, List.length_cons, List.count_cons_self,
      List.count_append]
      omega
    · obtain ⟨hlen, hcount⟩ := ih ((List.mem_cons.mp h).resolve_left (Ne.symm hc))
      rw [if_neg hc, List.length_cons, List.length_cons, List.count_cons_of_ne hc,
        List.count_cons_of_ne hc]
      omega

/-- The replacements of all arguments. -/
def putAll (es : List Text) (s : Text) : Text := es.foldl (fun s e => putFirst e s) s

theorem replaceFirst_plain (h : Plain a) (s : Text) : replaceFirst a s = some (putFirst a s) := by
  rw [replaceFirst, expand, expandFrom_plain h, Option.map_some]
  split
  · rfl
  · rename_i hs
    rw [putFirst_of_not_mem hs]

theorem percent_plain : ∀ {as : List Text}, (∀ a ∈ as, Plain a) → ∀ s, percent s (as.map .value) =
    some (putAll as s)
  | [], _, _ => rfl
  | a :: as, h, s => by
    have ih := percent_plain (fun b hb => h b (List.mem_cons_of_mem a hb)) (putFirst a s)
    change (replaceFirst a s).bind (fun s => percent s (as.map .value)) = _
    rw [replaceFirst_plain (h a List.mem_cons_self), Option.bind_some, ih]
    rfl

theorem length_fill : ∀ {s : Text} {as : List Text}, as.length ≤ s.count '%' →
    (fill s as).length + as.length = s.length + (as.map List.length).sum
  | [], as, h => by
    obtain rfl : as = [] := List.length_eq_zero_iff.mp (by simpa using h)
    rfl
  | c :: s, [], _ => by simp [fill]
  | c :: s, a :: as, h => by
    rw [fill]
    by_cases hc : c = '%'
    · rw [hc, List.count_cons_self, List.length_cons] at h
      have ih := @length_fill s as (by omega)
      rw [if_pos hc, List.length_append, List.length_cons, List.length_cons, List.map_cons,
        List.sum_cons]
      omega
    · rw [List.count_cons_of_ne hc] at h
      have ih := @length_fill s (a :: as) h
      simp only [if_neg hc, List.length_cons] at ih ⊢
      omega

/-- **Special characters make the result shorter**, or there is none. -/
theorem length_percent : ∀ {as : List Text} {s r : Text}, as.length ≤ s.count '%' →
    percent s (as.map .value) = some r → r.length + as.length < s.length +
      (as.map List.length).sum ∨
      r.length + as.length = s.length + (as.map List.length).sum ∧ ∀ a ∈ as, Plain a
  | [], s, r, _, h => by
    obtain rfl : s = r := Option.some.inj h
    exact .inr ⟨rfl, fun a ha => absurd ha List.not_mem_nil⟩
  | a :: as, s, r, hcount, h => by
    rw [List.length_cons] at hcount
    have hsign : '%' ∈ s := List.count_pos_iff.mp (by omega)
    change (replaceFirst a s).bind (fun s => percent s (as.map .value)) = some r at h
    rw [replaceFirst, if_pos hsign] at h
    obtain ⟨t, ht, h⟩ := Option.bind_eq_some_iff.mp h
    obtain ⟨e, he, rfl⟩ := Option.map_eq_some_iff.mp ht
    obtain ⟨hlen, hless⟩ := length_putFirst (e := e) hsign
    have ih := @length_percent as (putFirst e s) r (by omega) h
    have hexpand := length_expandFrom he
    simp only [List.map_cons, List.sum_cons, List.length_cons]
    rcases hexpand with hshort | ⟨rfl, hplain⟩
    · left
      rcases ih with ih | ⟨ih, -⟩ <;> omega
    · rcases ih with ih | ⟨ih, hall⟩
      · left
        omega
      · exact .inr ⟨by omega, List.forall_mem_cons.mpr ⟨hplain, hall⟩⟩

/-! With plain arguments. -/

theorem putAll_append (h : '%' ∉ s) (t : Text) (es : List Text) :
    putAll es (s ++ t) = s ++ putAll es t := by
  induction es generalizing t with
  | nil => rfl
  | cons e es ih =>
    change putAll es (putFirst e (s ++ t)) = s ++ putAll es (putFirst e t)
    rw [putFirst_append h, ih]

theorem putAll_signs {es : List Text} (h : ∀ e ∈ es, e = ['%']) (s : Text) : putAll es s = s := by
  induction es generalizing s with
  | nil => rfl
  | cons e es ih =>
    change putAll es (putFirst e s) = s
    rw [h e List.mem_cons_self, putFirst_sign, ih fun e he => h e (List.mem_cons_of_mem _ he)]

theorem fill_signs : ∀ {as : List Text} (s : Text), (∀ a ∈ as, a = ['%']) → fill s as = s
  | _, [], _ => rfl
  | [], c :: s, _ => rfl
  | a :: as, c :: s, h => by
    rw [fill]
    by_cases hc : c = '%'
    · have ih := @fill_signs as s fun b hb => h b (List.mem_cons_of_mem a hb)
      rw [if_pos hc, ih, h a List.mem_cons_self, hc]
      rfl
    · rw [if_neg hc, fill_signs s h]

theorem fill_nil (s : Text) : fill s [] = s := by cases s <;> rfl

theorem fill_append (h : '%' ∉ s) (t : Text) (as : List Text) :
    fill (s ++ t) as = s ++ fill t as := by
  rcases as with _ | ⟨a, as⟩
  · rw [fill_nil, fill_nil]
  · induction s with
    | nil => rfl
    | cons c s ih =>
      obtain ⟨hc, hs⟩ := not_or.mp (mt List.mem_cons.mpr h)
      rw [List.cons_append, fill, if_neg (Ne.symm hc), ih hs]
      rfl

theorem fill_sign (a t : Text) (as : List Text) : fill ('%' :: t) (a :: as) = a ++ fill t as := by
  rw [fill, if_pos rfl]

theorem putAll_eq_fill :
    ∀ {as : List Text} {s : Text}, as.Pairwise (fun a b => '%' ∈ a → b = ['%']) →
    as.length ≤ s.count '%' → putAll as s = fill s as
  | [], s, _, _ => (fill_nil s).symm
  | a :: as, s, h, hcount => by
    obtain ⟨hbehind, h⟩ := List.pairwise_cons.mp h
    rw [List.length_cons] at hcount
    have hsign : '%' ∈ s := List.count_pos_iff.mp (by omega)
    obtain ⟨p, t, rfl, hp⟩ := List.eq_append_cons_of_mem hsign
    rw [List.count_append, List.count_eq_zero_of_not_mem hp, List.count_cons_self] at hcount
    have hput : putFirst a (p ++ '%' :: t) = p ++ (a ++ t) := by
      rw [putFirst_append hp, putFirst, if_pos rfl]
    change putAll as (putFirst a (p ++ '%' :: t)) = _
    rw [hput, fill_append hp, fill_sign, putAll_append hp]
    by_cases ha : '%' ∈ a
    · rw [putAll_signs fun b hb => hbehind b hb ha, fill_signs t fun b hb => hbehind b hb ha]
    · rw [putAll_append ha, putAll_eq_fill h (by omega)]

end Values

/-! ### Values that are mixed up

A template of percent signs with long separators: the result falls apart at the separators, and an
argument behind one with a percent sign stays in the part of that one. -/

section Parts

/-- The parts, with a separator behind each. -/
def parts (separator : Text) (bs : List Text) : Text := bs.flatMap (· ++ separator)

/-- A replacement in the first part with a percent sign. -/
def putPart (e : Text) : List Text → List Text
  | [] => []
  | b :: bs => if '%' ∈ b then putFirst e b :: bs else b :: putPart e bs

def putParts (es : List Text) (bs : List Text) : List Text := es.foldl (fun bs e => putPart e bs) bs

variable {separator a e : Text} {as bs bs' : List Text}

theorem putFirst_parts (h : '%' ∉ separator) (e : Text) (bs : List Text) :
    putFirst e (parts separator bs) = parts separator (putPart e bs) := by
  induction bs with
  | nil => rfl
  | cons b bs ih =>
    rw [parts, List.flatMap_cons, putPart]
    by_cases hb : '%' ∈ b
    · rw [if_pos hb, List.append_assoc, putFirst_append_left hb, ← List.append_assoc]
      rfl
    · have hnone : '%' ∉ b ++ separator := fun hmem => (List.mem_append.mp hmem).elim hb h
      rw [if_neg hb, putFirst_append hnone]
      exact congrArg (b ++ separator ++ ·) ih

theorem putAll_parts (h : '%' ∉ separator) : ∀ (es bs : List Text),
    putAll es (parts separator bs) = parts separator (putParts es bs)
  | [], _ => rfl
  | e :: es, bs => by
    change putAll es (putFirst e (parts separator bs)) = parts separator
      (putParts es (putPart e bs))
    rw [putFirst_parts h, putAll_parts h]

theorem fill_parts (h : '%' ∉ separator) : ∀ as : List Text,
    fill (parts separator (as.map fun _ => ['%'])) as = parts separator as
  | [] => rfl
  | a :: as => by
    change fill ('%' :: (separator ++ parts separator (as.map fun _ => ['%']))) (a :: as) = _
    rw [fill_sign, fill_append h, fill_parts h as, ← List.append_assoc]
    rfl

theorem count_parts (separator : Text) (as : List Text) :
    as.length ≤ (parts separator (as.map fun _ => ['%'])).count '%' := by
  induction as with
  | nil => exact Nat.zero_le _
  | cons a as ih =>
    change as.length + 1 ≤ ('%' :: (separator ++ parts separator (as.map fun _ => ['%']))).count '%'
    rw [List.count_cons_self, List.count_append]
    omega

/-! The separators are found again. -/

def longSeparator (n : ℕ) : Text := List.replicate n 'a' ++ ['b']

theorem sign_not_mem_longSeparator (n : ℕ) : '%' ∉ longSeparator n := by
  intro hmem
  rcases List.mem_append.mp hmem with hmem | hmem
  · exact absurd (List.eq_of_mem_replicate hmem) (by decide)
  · exact absurd (List.mem_singleton.mp hmem) (by decide)

theorem length_le_of_longSeparator {n : ℕ} {x x' y y' : Text} (hx' : x'.length ≤ n)
    (h : x ++ (longSeparator n ++ y) = x' ++ (longSeparator n ++ y')) : x'.length ≤ x.length := by
  by_contra hlt
  -- the end of the first separator is inside of the second one
  have hleft : (x ++ (longSeparator n ++ y))[x.length + n]? = some 'b' := by
    rw [List.getElem?_append_right (by omega), Nat.add_sub_cancel_left, longSeparator,
      List.append_assoc, List.getElem?_append_right (by rw [List.length_replicate]),
      List.length_replicate, Nat.sub_self]
    rfl
  have hright : (x' ++ (longSeparator n ++ y'))[x.length + n]? = some 'a' := by
    rw [List.getElem?_append_right (by omega), longSeparator, List.append_assoc,
      List.getElem?_append_left (by rw [List.length_replicate]; omega), List.getElem?_replicate,
      if_pos (by omega)]
  rw [h, hright] at hleft
  cases hleft

theorem parts_inj {n : ℕ} : ∀ {bs bs' : List Text}, bs.length = bs'.length →
    (∀ b ∈ bs, b.length ≤ n) →
    (∀ b ∈ bs', b.length ≤ n) → parts (longSeparator n) bs = parts (longSeparator n) bs' → bs = bs'
  | [], [], _, _, _, _ => rfl
  | b :: bs, b' :: bs', hlen, hb, hb', h => by
    rw [parts, parts, List.flatMap_cons, List.flatMap_cons, List.append_assoc,
      List.append_assoc] at h
    have hle := length_le_of_longSeparator (hb' b' List.mem_cons_self) h
    have hge := length_le_of_longSeparator (hb b List.mem_cons_self) h.symm
    obtain ⟨rfl, htail⟩ := List.append_inj h (by omega)
    have ih := parts_inj (Nat.succ.inj hlen) (fun c hc => hb c (List.mem_cons_of_mem b hc))
      (fun c hc => hb' c (List.mem_cons_of_mem b hc)) (List.append_cancel_left htail)
    rw [ih]

theorem length_le_sum : ∀ {bs : List Text}, ∀ b ∈ bs, b.length ≤ (bs.map List.length).sum
  | c :: bs, b, hb => by
    rw [List.map_cons, List.sum_cons]
    rcases List.mem_cons.mp hb with rfl | hb
    · omega
    · have ih := length_le_sum b hb
      omega

theorem length_putParts : ∀ (es bs : List Text), (putParts es bs).length = bs.length ∧
    ((putParts es bs).map List.length).sum ≤ (bs.map List.length).sum + (es.map List.length).sum
  | [], bs => ⟨rfl, Nat.le_add_right _ _⟩
  | e :: es, bs => by
    have hpart : (putPart e bs).length = bs.length ∧
        ((putPart e bs).map List.length).sum ≤ (bs.map List.length).sum + e.length := by
      induction bs with
      | nil => exact ⟨rfl, Nat.zero_le _⟩
      | cons b bs ih =>
        rw [putPart]
        by_cases hb : '%' ∈ b
        · have hlen := (length_putFirst (e := e) hb).1
          rw [if_pos hb, List.map_cons, List.map_cons, List.sum_cons, List.sum_cons]
          exact ⟨rfl, by omega⟩
        · rw [if_neg hb, List.length_cons, List.length_cons, List.map_cons, List.map_cons,
            List.sum_cons, List.sum_cons]
          omega
    obtain ⟨hlen, hsum⟩ := length_putParts es (putPart e bs)
    change (putParts es (putPart e bs)).length = _ ∧
      ((putParts es (putPart e bs)).map List.length).sum ≤ _
    rw [List.map_cons, List.sum_cons]
    omega

/-! The arguments stay where the first percent sign is. -/

theorem putParts_of_not_mem {b : Text} (hb : '%' ∉ b) : ∀ (es bs : List Text),
    putParts es (b :: bs) = b :: putParts es bs
  | [], _ => rfl
  | e :: es, bs => by
    have hpart : putPart e (b :: bs) = b :: putPart e bs := by rw [putPart, if_neg hb]
    change putParts es (putPart e (b :: bs)) = b :: putParts es (putPart e bs)
    rw [hpart, putParts_of_not_mem hb]

/-- A first part that has a percent sign at the end has kept the others from being looked at. -/
theorem tail_of_putParts : ∀ {es : List Text} {b b' : Text} {bs bs' : List Text},
    putParts es (b :: bs) = b' :: bs' → '%' ∈ b' → bs' = bs
  | [], b, b', bs, bs', h, _ => (List.cons.inj h).2.symm
  | e :: es, b, b', bs, bs', h, hb' => by
    change putParts es (putPart e (b :: bs)) = b' :: bs' at h
    rw [putPart] at h
    by_cases hb : '%' ∈ b
    · rw [if_pos hb] at h
      exact tail_of_putParts h hb'
    · rw [if_neg hb, putParts_of_not_mem hb] at h
      rw [← (List.cons.inj h).1] at hb'
      exact absurd hb' hb

theorem signs_of_putParts : ∀ {as : List Text}, putParts as (as.map fun _ => ['%']) = as →
    as.Pairwise fun a b => '%' ∈ a → b = ['%']
  | [], _ => List.Pairwise.nil
  | a :: as, h => by
    have hfirst : putPart a (['%'] :: as.map fun _ => ['%']) = a :: as.map fun _ => ['%'] := by
      rw [putPart, if_pos List.mem_cons_self, putFirst, if_pos rfl, List.append_nil]
    change putParts as (putPart a (['%'] :: as.map fun _ => ['%'])) = a :: as at h
    rw [hfirst] at h
    by_cases ha : '%' ∈ a
    · have has : as = as.map fun _ => ['%'] := tail_of_putParts h ha
      have hall : ∀ b ∈ as, b = ['%'] := by
        intro b hb
        rw [has] at hb
        obtain ⟨-, -, rfl⟩ := List.mem_map.mp hb
        rfl
      refine List.pairwise_cons.mpr ⟨fun b hb _ => hall b hb, ?_⟩
      exact List.pairwise_of_forall_mem_list fun b _ c hc _ => hall c hc
    · rw [putParts_of_not_mem ha] at h
      exact List.pairwise_cons.mpr ⟨fun b _ hmem => absurd hmem ha,
        signs_of_putParts (List.cons.inj h).2⟩

end Parts

/-! ### Both -/

/-- **Values are put in as they should be** if they are plain and none but percent signs follow one
with a percent sign. -/
theorem Literal.right {args : List Text} {template : Text} (h : Literal args)
    (hcount : args.length ≤ template.count '%') : RightPositional args template := by
  rw [RightPositional, percent_plain h.plain, putAll_eq_fill h.signs hcount]

/-- Values that are not plain never come out right. -/
theorem plain_of_right {args : List Text} {template : Text} (h : RightPositional args template)
    (hcount : args.length ≤ template.count '%') : ∀ a ∈ args, Plain a := by
  have hfill := length_fill hcount
  rcases length_percent hcount h with hlt | ⟨-, hplain⟩
  · omega
  · exact hplain

theorem Literal.of_prefix {args before : List Text} (h : Literal args) (hpre : before <+: args) :
    Literal before :=
  ⟨fun a ha => h.plain a (hpre.subset ha), h.signs.sublist hpre.sublist⟩

/-- **A template comes out right with any of the first values** exactly if each of them goes to the
next percent sign of the template. -/
theorem beginnings_iff {args : List Text} {template : Text}
    (hcount : args.length ≤ template.count '%') :
    (∀ before, before <+: args → RightPositional before template) ↔ InTurn args template := by
  have hnext : ∀ before a, percent template ((before ++ [a]).map .value) =
      (percent template (before.map .value)).bind (replaceFirst a) := by
    intro before a
    rw [List.map_append, percent, List.foldlM_append]
    change (percent template (before.map .value)).bind (fun s => (replaceFirst a s).bind some) = _
    refine congrArg _ (funext fun s => ?_)
    cases replaceFirst a s <;> rfl
  constructor
  · rintro h before a after rfl
    have hboth : before ++ [a] <+: before ++ a :: after :=
      ⟨after, by rw [List.append_assoc, List.singleton_append]⟩
    have hright := h _ hboth
    have hplain := plain_of_right hright (hboth.length_le.trans hcount) a (by simp)
    have hbefore : percent template (before.map .value) = some (fill template before) :=
      h _ (List.prefix_append _ _)
    rw [RightPositional, hnext, hbefore, Option.bind_some, replaceFirst_plain hplain] at hright
    exact ⟨hplain, Option.some.inj hright⟩
  · intro h before hpre
    induction before using List.reverseRecOn with
    | nil => rw [RightPositional, fill_nil]; rfl
    | append_singleton before a ih =>
      obtain ⟨after, rfl⟩ := hpre
      have hbefore : percent template (before.map .value) = some (fill template before) :=
        ih ⟨a :: after, by rw [List.append_assoc, List.singleton_append]⟩
      obtain ⟨hplain, hput⟩ := h before a after (by rw [List.append_assoc, List.singleton_append])
      rw [RightPositional, hnext, hbefore, Option.bind_some, replaceFirst_plain hplain, hput]

/-- Literal values go to the percent signs of every template. -/
theorem Literal.inTurn {args : List Text} {template : Text} (h : Literal args)
    (hcount : args.length ≤ template.count '%') : InTurn args template :=
  (beginnings_iff hcount).mp fun _ hpre => (h.of_prefix hpre).right (hpre.length_le.trans hcount)

/-- **Values are put in as they should be** in every template with enough percent signs exactly if
they are plain and none but percent signs follow one with a percent sign. -/
theorem positional_iff (args : List Text) :
    (∀ template, args.length ≤ template.count '%' → RightPositional args template) ↔
      Literal args := by
  constructor
  · intro h
    have hreplicate : args.length ≤ (List.replicate args.length '%').count '%' := by
      rw [List.count_replicate_self]
    have hplain := plain_of_right (h _ hreplicate) hreplicate
    let n := args.length + (args.map List.length).sum
    have hsign := sign_not_mem_longSeparator n
    have hright := h _ (count_parts (longSeparator n) args)
    rw [RightPositional, percent_plain hplain, putAll_parts hsign, fill_parts hsign] at hright
    obtain ⟨hlen, hsum⟩ := length_putParts args (args.map fun _ => ['%'])
    have hone : ((args.map fun _ => ['%']).map List.length).sum = args.length := by simp
    refine ⟨hplain, signs_of_putParts (parts_inj (n := n) ?_ ?_ ?_ (Option.some.inj hright))⟩
    · rw [hlen, List.length_map]
    · intro b hb
      have hle := length_le_sum b hb
      omega
    · intro b hb
      have hle := length_le_sum b hb
      omega
  · intro h template hcount
    exact (beginnings_iff hcount).mpr (h.inTurn hcount) args List.prefix_rfl

/-- **Every placeholder is replaced by its own argument.** A template comes out right if each pair
is put in its place and each value goes to the next percent sign, which is so exactly if it comes
out right with any of the pairs and any of the first values; and every template does exactly for
separate pairs and for literal values. -/
theorem substitutes_iff (pairs : NamedArgs) (values : List Text) :
    (∀ template, (InPlace pairs template → RightNamed pairs template) ∧
      ((∀ chosen : NamedArgs, (∀ a ∈ chosen.pairs, a ∈ pairs.pairs) → RightNamed chosen template) ↔
        InPlace pairs template)) ∧
      (∀ template, values.length ≤ template.count '%' →
        (InTurn values template → RightPositional values template) ∧
          ((∀ before, before <+: values → RightPositional before template) ↔
            InTurn values template)) ∧
      ((∀ template, RightNamed pairs template) ↔ Separate pairs) ∧
      ((∀ template, values.length ≤ template.count '%' → RightPositional values template) ↔
        Literal values) := by
  refine ⟨fun template => ⟨InPlace.right, chosen_iff pairs template⟩, fun template hcount =>
    ⟨fun h => ?_, ?_⟩, named_iff pairs, positional_iff values⟩
  · exact (beginnings_iff hcount).mpr h values List.prefix_rfl
  · exact beginnings_iff hcount

/-- `%{a}`, where the value of `a` is the placeholder of `b`. -/
def nested : NamedArgs :=
  ⟨[("a".toList, placeholder "b".toList), ("b".toList, "x".toList)], by decide⟩

/-- A placeholder that overlaps itself. -/
def doubled : NamedArgs := ⟨[("\x7d%\x7b".toList, "x".toList)], by decide⟩

/-- A template with no placeholders, one with a placeholder that has no room to overlap itself, and
one where the value with a percent sign comes last. -/
theorem substitutes_hello : RightNamed nested "hello".toList ∧
    RightNamed doubled "%\x7b\x7d%\x7b\x7d".toList ∧
    RightPositional ["x".toList, "%".toList] "% %".toList := by
  have hnone : ∀ a ∈ nested.pairs, ¬ target a <:+: "hello".toList := by decide
  have hps : Parses target (· ∈ doubled.pairs) [.hole ("\x7d%\x7b".toList, "x".toList)]
    "%\x7b\x7d%\x7b\x7d".toList := by
    refine ⟨⟨List.mem_singleton_self _, trivial⟩, ⟨fun k hk w hw hsuf hwhole hpre => ?_,
      trivial⟩, by decide⟩
    obtain rfl := List.mem_singleton.mp hk
    rw [text, List.append_nil] at hpre
    exact hwhole (hsuf.eq_of_length_le hpre.length_le) rfl
  have hinTurn : InTurn ["x".toList, "%".toList] "% %".toList :=
    Literal.inTurn ⟨by unfold Plain; decide, by decide⟩ (by decide)
  refine ⟨((substitutes_iff nested []).1 _).1 (.none hnone), ((substitutes_iff doubled []).1 _).1
    (.one rfl hps), ?_⟩
  exact ((substitutes_iff nested ["x".toList, "%".toList]).2.1 _ (by decide)).1 hinTurn

/-- The order matters for the pairs, and a value with a percent sign takes the next one. -/
theorem not_substitutes : ¬ RightNamed nested (placeholder "a".toList) ∧
    ¬ RightPositional ["%".toList, "x".toList] "% %".toList := by
  constructor
  · rintro ⟨ps, -, h⟩
    have hfirst := h nested.pairs (List.Perm.refl _)
    have hsecond := h nested.pairs.reverse (List.reverse_perm _)
    have hdiffer : percent (placeholder "a".toList) (named nested.pairs) ≠
        percent (placeholder "a".toList) (named nested.pairs.reverse) := by decide
    exact hdiffer (hfirst.trans hsecond.symm)
  · unfold RightPositional
    decide

end ServeD.Utils.Templates
