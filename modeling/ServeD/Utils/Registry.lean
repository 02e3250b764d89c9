import ServeD.Utils.FileEvents

/-! # The registry of the file events manager

Each branch of `receive` is described once, by what it leaves of the state (`step_known`,
`step_new`, `step_openFailed`, `step_keventFailed`, `step_unregister`, `step_kqueue`), and then by
what it does to the registrations of a path (`regs_known`, ...). `Inv` holds in every state that is
reached while `open` does not give a descriptor that is a key of the map.

With every call succeeding the map holds for each path exactly the registrations whose actor has not
been unregistered since (`registryLaw_after`). -/

namespace ServeD.Utils.Registry

open ServeD.Lib.Runs ServeD.Utils.FileEvents

variable {A : Type} [DecidableEq A] {s : FEM A} {c : Sys} {p : String} {f : Flags} {r : A}

/-! ### Paths and their entries -/

section Find

omit [DecidableEq A]

theorem find_none : s.find p = none ↔ ∀ i l, s.idents.lookup i ≠ some (p, l) := by
  unfold FEM.find
  rw [List.find?_eq_none]
  constructor
  · intro h i l hl
    have hm := AList.mem_lookup_iff.mp hl
    simpa using h _ hm
  · rintro h ⟨i, q, l⟩ hm heq
    have hq : q = p := by simpa using heq
    subst hq
    exact h i l (AList.mem_lookup_iff.mpr hm)

theorem find_some {i : ℤ} {v : String × ActorRefList A} (h : s.find p = some ⟨i, v⟩) :
    v.1 = p ∧ s.idents.lookup i = some v := by
  unfold FEM.find at h
  refine ⟨by simpa using List.find?_some h, ?_⟩
  exact AList.mem_lookup_iff.mpr (List.mem_of_find?_eq_some h)

/-- The registrations on a path. -/
def regs (s : FEM A) (p : String) : ActorRefList A := ((s.find p).map fun e => e.2.2).getD []

theorem regs_eq_nil (h : ∀ i l, s.idents.lookup i ≠ some (p, l)) : regs s p = [] := by
  rw [regs, find_none.mpr h]; rfl

/-- The state of the map between messages. -/
structure Inv (s : FEM A) : Prop where
  onePath : ∀ i j p l l', s.idents.lookup i = some (p, l) → s.idents.lookup j = some (p, l') → i = j
  nonempty : ∀ i p l, s.idents.lookup i = some (p, l) → l ≠ []
  opened : ∀ i ∈ s.idents, i ∈ s.opened
  filtered : ∀ i ∈ s.idents, ∃ mask, s.filters i = some mask

theorem inv_init : Inv (FEM.init : FEM A) :=
  ⟨fun i j p l l' h => by simp [FEM.init] at h, fun i p l h => by simp [FEM.init] at h,
    fun i h => absurd h (AList.notMem_empty i), fun i h => absurd h (AList.notMem_empty i)⟩

theorem inv_restart (s : FEM A) : Inv s.restart :=
  ⟨fun i j p l l' h => by simp [FEM.restart] at h, fun i p l h => by simp [FEM.restart] at h,
    fun i h => absurd h (AList.notMem_empty i), fun i h => absurd h (AList.notMem_empty i)⟩

theorem mem_of_lookup {m : IdentsMap A} {i : ℤ} {v : String × ActorRefList A}
    (h : m.lookup i = some v) : i ∈ m := AList.lookup_isSome.mp (by rw [h]; rfl)

/-- An entry of a map with one more is the new one or an old one. -/
theorem lookup_insert_cases {m : IdentsMap A} {i j : ℤ} {v x : String × ActorRefList A}
    (h : (m.insert i v).lookup j = some x) : j = i ∧ x = v ∨ j ≠ i ∧ m.lookup j = some x := by
  by_cases hij : j = i
  · subst hij
    rw [AList.lookup_insert, Option.some.injEq] at h
    exact Or.inl ⟨rfl, h.symm⟩
  · rw [AList.lookup_insert_ne hij] at h
    exact Or.inr ⟨hij, h⟩

theorem Inv.find_eq (hs : Inv s) {i : ℤ} {l : ActorRefList A}
    (h : s.idents.lookup i = some (p, l)) : s.find p = some ⟨i, (p, l)⟩ := by
  rcases hf : s.find p with _ | ⟨j, q, l'⟩
  · exact absurd h (find_none.mp hf i l)
  · obtain ⟨hq, hl⟩ := find_some hf
    simp only at hq
    subst hq
    obtain rfl := hs.onePath i j _ l l' h hl
    rw [h, Option.some.injEq] at hl
    rw [hl]

theorem Inv.regs_eq (hs : Inv s) {i : ℤ} {l : ActorRefList A}
    (h : s.idents.lookup i = some (p, l)) : regs s p = l := by
  rw [regs, hs.find_eq h]; rfl

theorem Inv.exists_lookup (hs : Inv s) (h : regs s p ≠ []) :
    ∃ i, s.idents.lookup i = some (p, regs s p) := by
  rcases hf : s.find p with _ | ⟨j, q, l'⟩
  · rw [regs, hf] at h; exact absurd rfl h
  · obtain ⟨hq, hl⟩ := find_some hf
    simp only at hq
    subst hq
    rw [hs.regs_eq hl]; exact ⟨j, hl⟩

end Find

/-! ### The branches -/

theorem step_known {i : ℤ} {l : ActorRefList A} (h : s.find p = some ⟨i, (p, l)⟩) :
    s.step (.registerFileEvent p f r, c) =
      { s with idents := s.idents.insert i (p, l ++ [(f, r)]) } := by
  simp [FEM.step, FEM.receive, h]

theorem step_new (h : s.find p = none) (h1 : c.ident ≠ -1) (h2 : c.nev ≠ -1) :
    s.step (.registerFileEvent p f r, c) =
      { idents := s.idents.insert c.ident (p, [(f, r)])
        filters := Function.update s.filters c.ident (some f)
        opened := insert c.ident s.opened } := by
  simp [FEM.step, FEM.receive, h, FEM.registerNewFileEvent, h1, h2]

theorem step_openFailed (h : s.find p = none) (h1 : c.ident = -1) :
    s.step (.registerFileEvent p f r, c) = s.restart := by
  simp [FEM.step, FEM.receive, h, FEM.registerNewFileEvent, h1]

theorem step_keventFailed (h : s.find p = none) (h1 : c.ident ≠ -1) (h2 : c.nev = -1) :
    s.step (.registerFileEvent p f r, c) =
      { s.restart with opened := insert c.ident s.opened } := by
  simp [FEM.step, FEM.receive, h, FEM.registerNewFileEvent, h1, h2, FEM.restart]

theorem step_unregister (s : FEM A) (r : A) (c : Sys) :
    s.step (.unregisterFileEvent r, c) =
      { s with idents := s.idents.entries.foldl (FEM.visit r) s.idents } := rfl

theorem step_kqueue (s : FEM A) (i : ℤ) (f : Flags) (c : Sys) :
    s.step (.kqueueFileEvent i f, c) = s := rfl

/-! ### The invariant -/

omit [DecidableEq A] in
/-- The message makes the manager open a file. -/
def opens (s : FEM A) : Msg A → Bool
  | .registerFileEvent p _ _ => (s.find p).isNone
  | _ => false

omit [DecidableEq A] in
theorem opens_register : opens s (.registerFileEvent p f r) = true ↔ s.find p = none :=
  Option.isNone_iff_eq_none

/-- `open` does not give a descriptor that is a key of the map. -/
def Env (s : FEM A) (e : Msg A × Sys) : Prop :=
  opens s e.1 = true → e.2.ident ≠ -1 → e.2.ident ∉ s.idents

instance (s : FEM A) (e : Msg A × Sys) : Decidable (Env s e) := inferInstanceAs (Decidable (_ → _))

theorem lookup_unregister_some {i : ℤ} {l : ActorRefList A} :
    (s.step (.unregisterFileEvent r, c)).idents.lookup i = some (p, l) ↔
      ∃ l', s.idents.lookup i = some (p, l') ∧ l = l'.filter (fun x => x.2 ≠ r) ∧ l ≠ [] := by
  rw [step_unregister, lookup_unregister]
  rcases s.idents.lookup i with _ | ⟨q, l'⟩
  · simp
  · simp only [Option.bind_some, remaining]
    split_ifs with h
    · simp only [false_iff, not_exists, not_and, Option.some.injEq, Prod.mk.injEq,
        and_imp]
      rintro x - rfl rfl hne
      exact hne h
    · simp only [Option.some.injEq, Prod.mk.injEq]
      constructor
      · rintro ⟨rfl, rfl⟩; exact ⟨l', ⟨rfl, rfl⟩, rfl, h⟩
      · rintro ⟨x, ⟨rfl, rfl⟩, rfl, -⟩; exact ⟨rfl, rfl⟩

omit [DecidableEq A] in
theorem Inv.known (hs : Inv s) {i : ℤ} {l : ActorRefList A} (h : s.idents.lookup i = some (p, l)) :
    Inv { s with idents := s.idents.insert i (p, l ++ [(f, r)]) } := by
  have hmem : ∀ j, j ∈ s.idents.insert i (p, l ++ [(f, r)]) → j ∈ s.idents := by
    intro j hj
    rcases (AList.mem_insert _).mp hj with rfl | hj
    · exact mem_of_lookup h
    · exact hj
  -- a path is still looked up where it was
  have hpath : ∀ j q m, (s.idents.insert i (p, l ++ [(f, r)])).lookup j = some (q, m) →
      m ≠ [] ∧ ∃ m', s.idents.lookup j = some (q, m') := by
    intro j q m hj
    rcases lookup_insert_cases hj with ⟨rfl, heq⟩ | ⟨-, hj⟩
    · obtain ⟨rfl, rfl⟩ := Prod.mk.inj heq
      exact ⟨by simp, l, h⟩
    · exact ⟨hs.nonempty j q m hj, m, hj⟩
  refine ⟨fun j k q m m' hj hk => ?_, fun j q m hj => (hpath j q m hj).1,
    fun j hj => hs.opened j (hmem j hj), fun j hj => hs.filtered j (hmem j hj)⟩
  obtain ⟨-, n, hn⟩ := hpath j q m hj
  obtain ⟨-, n', hn'⟩ := hpath k q m' hk
  exact hs.onePath j k q n n' hn hn'

omit [DecidableEq A] in
theorem Inv.new (hs : Inv s) (h : s.find p = none) (hi : c.ident ∉ s.idents) :
    Inv { idents := s.idents.insert c.ident (p, [(f, r)])
          filters := Function.update s.filters c.ident (some f)
          opened := insert c.ident s.opened } := by
  refine ⟨fun j k q m m' hj hk => ?_, fun j q m hj => ?_, fun j hj => ?_, fun j hj => ?_⟩
  · rcases lookup_insert_cases hj with ⟨rfl, hq⟩ | ⟨-, hj'⟩
    · rcases lookup_insert_cases hk with ⟨rfl, -⟩ | ⟨-, hk'⟩
      · rfl
      · rw [(Prod.mk.inj hq).1] at hk'
        exact absurd hk' (find_none.mp h k m')
    · rcases lookup_insert_cases hk with ⟨-, hq⟩ | ⟨-, hk'⟩
      · rw [(Prod.mk.inj hq).1] at hj'
        exact absurd hj' (find_none.mp h j m)
      · exact hs.onePath j k q m m' hj' hk'
  · rcases lookup_insert_cases hj with ⟨-, hq⟩ | ⟨-, hj'⟩
    · rw [(Prod.mk.inj hq).2]; exact List.cons_ne_nil _ _
    · exact hs.nonempty j q m hj'
  · rcases (AList.mem_insert _).mp hj with rfl | hj
    · exact Finset.mem_insert_self _ _
    · exact Finset.mem_insert_of_mem (hs.opened j hj)
  · rcases (AList.mem_insert _).mp hj with rfl | hj
    · exact ⟨f, Function.update_self _ _ _⟩
    · have hne : j ≠ c.ident := fun he => hi (he ▸ hj)
      obtain ⟨mask, hm⟩ := hs.filtered j hj
      exact ⟨mask, (Function.update_of_ne hne _ _).trans hm⟩

theorem mem_of_mem_unregister {i : ℤ} (h : i ∈ (s.step (.unregisterFileEvent r, c)).idents) :
    i ∈ s.idents := by
  obtain ⟨⟨q, l⟩, hl⟩ := Option.isSome_iff_exists.mp (AList.lookup_isSome.mpr h)
  obtain ⟨l', hl', -⟩ := lookup_unregister_some.mp hl
  exact mem_of_lookup hl'

theorem Inv.unregister (hs : Inv s) (r : A) (c : Sys) :
    Inv (s.step (.unregisterFileEvent r, c)) := by
  refine ⟨fun i j q l l' hi hj => ?_, fun i q l hi => ?_, fun i hi => ?_, fun i hi => ?_⟩
  · obtain ⟨m, hm, -⟩ := lookup_unregister_some.mp hi
    obtain ⟨m', hm', -⟩ := lookup_unregister_some.mp hj
    exact hs.onePath i j q m m' hm hm'
  · exact (lookup_unregister_some.mp hi).choose_spec.2.2
  · exact hs.opened i (mem_of_mem_unregister hi)
  · exact hs.filtered i (mem_of_mem_unregister hi)

/-- **Every message keeps the invariant.** -/
theorem inv_step (hs : Inv s) {e : Msg A × Sys} (he : Env s e) : Inv (s.step e) := by
  obtain ⟨m, c⟩ := e
  cases m with
  | registerFileEvent p f r =>
    rcases hf : s.find p with _ | ⟨i, q, l⟩
    · by_cases h1 : c.ident = -1
      · rw [step_openFailed hf h1]; exact inv_restart s
      · by_cases h2 : c.nev = -1
        · rw [step_keventFailed hf h1 h2]
          exact inv_restart { s with opened := insert c.ident s.opened }
        · rw [step_new hf h1 h2]; exact hs.new hf (he (opens_register.mpr hf) h1)
    · obtain ⟨rfl, hl⟩ := find_some hf
      rw [step_known hf]; exact hs.known hl
  | unregisterFileEvent r => exact hs.unregister r c
  | kqueueFileEvent i f =>
    rw [step_kqueue]
    exact hs

/-! ### What a message does to the registrations of a path -/

omit [DecidableEq A] in
theorem regs_insert {s' : FEM A} (hs : Inv s) (hs' : Inv s') {i : ℤ} {l : ActorRefList A}
    (h : s'.idents = s.idents.insert i (p, l))
    (hi : ∀ q m, s.idents.lookup i = some (q, m) → q = p) (q : String) :
    regs s' q = if q = p then l else regs s q := by
  by_cases hq : q = p
  · subst hq
    rw [if_pos rfl]
    exact hs'.regs_eq (by rw [h]; exact AList.lookup_insert _)
  · rw [if_neg hq]
    by_cases hr : regs s q = []
    · rw [hr]
      refine regs_eq_nil fun j m hj => ?_
      rw [h] at hj
      rcases lookup_insert_cases hj with ⟨-, heq⟩ | ⟨-, hj⟩
      · exact hq (Prod.mk.inj heq).1
      · exact hs.nonempty j q m hj (by rw [← hs.regs_eq hj]; exact hr)
    · obtain ⟨j, hj⟩ := hs.exists_lookup hr
      have hij : j ≠ i := fun he => hq (hi q _ (he ▸ hj))
      exact hs'.regs_eq (by rw [h]; exact (AList.lookup_insert_ne hij).trans hj)

/-- A registration succeeds: the path is known, or `open` gives a new descriptor and
`kevent` works. -/
def Granted (s : FEM A) (e : Msg A × Sys) : Prop :=
  opens s e.1 = true → e.2.ident ≠ -1 ∧ e.2.ident ∉ s.idents ∧ e.2.nev ≠ -1

instance (s : FEM A) (e : Msg A × Sys) : Decidable (Granted s e) :=
  inferInstanceAs (Decidable (_ → _))

omit [DecidableEq A] in
theorem Granted.env {e : Msg A × Sys} (h : Granted s e) : Env s e :=
  fun ho _ => (h ho).2.1

theorem regs_register (hs : Inv s) (hg : Granted s (.registerFileEvent p f r, c)) (q : String) :
    regs (s.step (.registerFileEvent p f r, c)) q =
      if q = p then regs s p ++ [(f, r)] else regs s q := by
  have hs' := inv_step hs hg.env
  rcases hf : s.find p with _ | ⟨i, p', l⟩
  · obtain ⟨h1, hi, h2⟩ := hg (opens_register.mpr hf)
    have hnil : regs s p = [] := regs_eq_nil (find_none.mp hf)
    rw [hnil]
    refine regs_insert hs hs' (by rw [step_new hf h1 h2]; rfl) (fun q' m hm => ?_) q
    exact absurd (mem_of_lookup hm) hi
  · obtain ⟨rfl, hl⟩ := find_some hf
    rw [hs.regs_eq hl]
    refine regs_insert hs hs' (by rw [step_known hf]) (fun q' m hm => ?_) q
    rw [hl, Option.some.injEq, Prod.mk.injEq] at hm
    exact hm.1.symm

theorem regs_unregister (hs : Inv s) (r : A) (c : Sys) (q : String) :
    regs (s.step (.unregisterFileEvent r, c)) q = (regs s q).filter fun x => x.2 ≠ r := by
  have hs' := hs.unregister r c
  by_cases hr : (regs s q).filter (fun x => x.2 ≠ r) = []
  · rw [hr]
    refine regs_eq_nil fun j m hj => ?_
    obtain ⟨l, hl, rfl, hne⟩ := lookup_unregister_some.mp hj
    rw [hs.regs_eq hl] at hr
    exact hne hr
  · have hne : regs s q ≠ [] := fun h0 => hr (by rw [h0]; rfl)
    obtain ⟨j, hj⟩ := hs.exists_lookup hne
    exact hs'.regs_eq (lookup_unregister_some.mpr ⟨_, hj, rfl, hr⟩)

/-- What a message makes of the registrations on a path. -/
def regsStep (p : String) (l : ActorRefList A) : Msg A → ActorRefList A
  | .registerFileEvent q f r => if q = p then l ++ [(f, r)] else l
  | .unregisterFileEvent r => l.filter fun x => x.2 ≠ r
  | .kqueueFileEvent _ _ => l

/-- **The registrations on a path, message by message.** -/
theorem regs_step (hs : Inv s) {e : Msg A × Sys} (hg : Granted s e) (p : String) :
    regs (s.step e) p = regsStep p (regs s p) e.1 := by
  obtain ⟨m, c⟩ := e
  cases m with
  | registerFileEvent q f r =>
    rw [regs_register hs hg, regsStep]
    by_cases hq : p = q
    · rw [if_pos hq, if_pos hq.symm, hq]
    · rw [if_neg hq, if_neg (Ne.symm hq)]
  | unregisterFileEvent r => exact regs_unregister hs r c p
  | kqueueFileEvent i f => rfl

/-! ### The registry over a run -/

/-- The registrations made for a path, in order, whose actor is not unregistered later. -/
def live (p : String) : List (Msg A) → ActorRefList A
  | [] => []
  | .registerFileEvent q f r :: msgs =>
    if q = p ∧ Msg.unregisterFileEvent r ∉ msgs then (f, r) :: live p msgs else live p msgs
  | _ :: msgs => live p msgs

theorem live_concat (p : String) (m : Msg A) : ∀ msgs : List (Msg A),
    live p (msgs ++ [m]) = regsStep p (live p msgs) m
  | [] => by
    cases m with
    | registerFileEvent q f r => by_cases h : q = p <;> simp [live, regsStep, h]
    | unregisterFileEvent r => rfl
    | kqueueFileEvent i f => rfl
  | .registerFileEvent q' f' r' :: msgs => by
    rw [List.cons_append, live, live, live_concat p m msgs]
    cases m with
    | registerFileEvent q f r =>
      by_cases h : q' = p ∧ Msg.unregisterFileEvent r' ∉ msgs
      · rw [if_pos h, if_pos (by simpa using h), regsStep, regsStep]
        split_ifs <;> rfl
      · rw [if_neg h, if_neg (by simpa using h)]
    | unregisterFileEvent r =>
      by_cases h : q' = p ∧ Msg.unregisterFileEvent r' ∉ msgs
      · rw [if_pos h, regsStep, regsStep]
        by_cases hr : r' = r
        · rw [if_neg (by simp [hr]), List.filter_cons, if_neg (by simpa using hr)]
        · rw [if_pos (by simp [h, hr]), List.filter_cons, if_pos (by simpa using hr)]
      · rw [if_neg h, if_neg fun h' => h ⟨h'.1, fun hm => h'.2 (List.mem_append_left _ hm)⟩]
    | kqueueFileEvent i f => simp [regsStep]
  | .unregisterFileEvent _ :: msgs => live_concat p m msgs
  | .kqueueFileEvent _ _ :: msgs => live_concat p m msgs

/-- The manager after a sequence of messages, from its start. -/
abbrev after (evs : List (Msg A × Sys)) : FEM A := run FEM.step FEM.init evs

theorem inv_after {evs : List (Msg A × Sys)} (h : Meets FEM.step Env FEM.init evs) :
    Inv (after evs) :=
  h.invariant (P := Inv) (fun _ _ hs he => inv_step hs he) inv_init

/-- **The registrations on a path** are those not unregistered since. -/
theorem regs_after {evs : List (Msg A × Sys)} (h : Meets FEM.step Granted FEM.init evs)
    (p : String) : regs (after evs) p = live p (evs.map (·.1)) := by
  induction evs using List.reverseRecOn generalizing p with
  | nil => rfl
  | append_singleton evs e ih =>
    obtain ⟨hm, he⟩ := (meets_concat _ _ _).mp h
    have hs := inv_after (hm.mono fun _ _ => Granted.env)
    have ih := ih hm
    rw [after, run_concat, regs_step hs he, ih, List.map_append]
    exact (live_concat p e.1 _).symm

theorem mem_live {p : String} {x : Flags × A} : ∀ msgs : List (Msg A), x ∈ live p msgs →
    Msg.registerFileEvent p x.1 x.2 ∈ msgs
  | .registerFileEvent q f r :: msgs, h => by
    rw [live] at h
    split_ifs at h with hq
    · rcases List.mem_cons.mp h with rfl | h
      · rw [hq.1]; exact List.mem_cons_self
      · exact List.mem_cons_of_mem _ (mem_live msgs h)
    · exact List.mem_cons_of_mem _ (mem_live msgs h)
  | .unregisterFileEvent _ :: msgs, h => List.mem_cons_of_mem _ (mem_live msgs h)
  | .kqueueFileEvent _ _ :: msgs, h => List.mem_cons_of_mem _ (mem_live msgs h)

omit [DecidableEq A] in
/-- The masks of a message are made of `NOTE_*` bits. -/
def NoteMasked : Msg A → Prop
  | .registerFileEvent _ f _ => NoteMask f
  | .unregisterFileEvent _ => True
  | .kqueueFileEvent _ f => NoteMask f

instance : DecidablePred (NoteMasked : Msg A → Prop)
  | .registerFileEvent _ f _ => inferInstanceAs (Decidable (NoteMask f))
  | .unregisterFileEvent _ => isTrue trivial
  | .kqueueFileEvent _ f => inferInstanceAs (Decidable (NoteMask f))

/-- What the registry does, after a run of messages. -/
structure RegistryLaw (evs : List (Msg A × Sys)) : Prop where
  /-- a path is under one descriptor -/
  onePath : ∀ i j p l l', (after evs).idents.lookup i = some (p, l) →
    (after evs).idents.lookup j = some (p, l') → i = j
  /-- a descriptor has a registration -/
  nonempty : ∀ i p l, (after evs).idents.lookup i = some (p, l) → l ≠ []
  /-- the registrations on a path are those not unregistered since, in order -/
  registrations : ∀ p, (∀ i l, (after evs).idents.lookup i = some (p, l) →
      l = live p (evs.map (·.1))) ∧
    (live p (evs.map (·.1)) ≠ [] →
      ∃ i, (after evs).idents.lookup i = some (p, live p (evs.map (·.1))))
  /-- unregistering an actor removes its registrations and keeps the others -/
  unregister : ∀ r c i p l,
    ((after evs).step (.unregisterFileEvent r, c)).idents.lookup i = some (p, l) ↔
      ∃ l', (after evs).idents.lookup i = some (p, l') ∧ l = l'.filter (fun x => x.2 ≠ r) ∧ l ≠ []
  /-- an event is told once for each registration on the descriptor that asked for it -/
  event : ∀ i f c, NoteMask f →
    ((after evs).receive c (.kqueueFileEvent i f)).sent =
      (match (after evs).idents.lookup i with
        | some (p, l) => (l.filter fun x => Intersects x.1 f).map fun x => .fileEvent x.2 p f
        | none => []) ++ [.apiSuccess]

/-- **The registry invariant**, with every call succeeding. -/
theorem registryLaw_after (evs : List (Msg A × Sys)) (hmask : ∀ e ∈ evs, NoteMasked e.1)
    (hgrant : Meets FEM.step Granted FEM.init evs) : RegistryLaw evs := by
  have hs := inv_after (hgrant.mono fun _ _ => Granted.env)
  have hregs := regs_after hgrant
  refine ⟨hs.onePath, hs.nonempty, fun p => ⟨fun i l hl => ?_, fun hne => ?_⟩,
    fun r c i p l => lookup_unregister_some, fun i f c _ => ?_⟩
  · rw [← hregs, hs.regs_eq hl]
  · rw [← hregs] at hne ⊢
    exact hs.exists_lookup hne
  · -- the masks registered are masks of `NOTE_*` bits
    rcases hl : (after evs).idents.lookup i with _ | ⟨p, l⟩
    · simp only [FEM.receive, hl]
    · simp only [FEM.receive, hl]
      congr 2
      refine List.filter_congr fun x hx => ?_
      rw [← hs.regs_eq hl, hregs] at hx
      obtain ⟨e, he, hxe⟩ := List.mem_map.mp (mem_live _ hx)
      have hx1 : NoteMask x.1 := by
        have h := hmask e he
        rw [hxe] at h
        exact h
      rw [Bool.eq_iff_iff, forwards_iff hx1, decide_eq_true_eq]

/-- Two actors on one path, one of them also on another, and one of them unregistered. -/
theorem registryLaw_twoActors :
    RegistryLaw (A := ℕ) [(.registerFileEvent "/a" 0x06 1, ⟨4, 0⟩),
      (.registerFileEvent "/a" 0x01 2, ⟨-1, -1⟩), (.registerFileEvent "/b" 0x02 1, ⟨5, 0⟩),
      (.registerFileEvent "/a" 0x06 1, ⟨-1, -1⟩), (.kqueueFileEvent 4 0x02, ⟨-1, -1⟩),
      (.unregisterFileEvent 1, ⟨-1, -1⟩)] :=
  registryLaw_after _ (by decide) (by decide)

end ServeD.Utils.Registry
