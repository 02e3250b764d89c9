import ServeD.Utils.Delivery

/-! # Failing calls and descriptors

When `open` or `kevent` fails, the exception leaves `receive` and the actor is replaced: all
registrations go, those of other paths and actors too. So a failed registration is isolated exactly
when there are none (`isolated_iff`).

Nothing closes a descriptor: not the removal of an entry whose last registration goes, not the
failure of `kevent` on a file just opened, not the replacement of the actor. The descriptors that
are open are the keys of the map exactly as long as none of these happens (`accounted_iff`). -/

namespace ServeD.Utils.Faults

open ServeD.Lib.Runs ServeD.Utils.FileEvents ServeD.Utils.Registry ServeD.Utils.Delivery

variable {A : Type} [DecidableEq A] {s : FEM A} {e : Msg A × Sys}

/-! ### Isolation -/

/-- The message is a registration whose `open` or `kevent` fails. -/
def fails (s : FEM A) (e : Msg A × Sys) : Bool :=
  opens s e.1 && (e.2.ident == -1 || e.2.nev == -1)

/-- What the manager sends when the events `occ` happen to the file of a path. -/
def occursOn (s : FEM A) (p : String) (occ : Flags) : List (Sent A) :=
  (s.find p).elim [] fun e => occurs s e.1 occ

/-- A message takes registrations away by unregistering their actor only. -/
structure Isolated (s : FEM A) (e : Msg A × Sys) : Prop where
  /-- the others stay in force, with their flags and in their order -/
  kept : ∀ p, ((regs s p).filter fun x => e.1 ≠ .unregisterFileEvent x.2).Sublist
    (regs (s.step e) p)
  /-- events that were told to them still are -/
  delivered : ∀ p, ∀ x ∈ regs s p, e.1 ≠ .unregisterFileEvent x.2 → ∀ occ flags,
    Sent.fileEvent x.2 p flags ∈ occursOn s p occ →
      Sent.fileEvent x.2 p flags ∈ occursOn (s.step e) p occ
  /-- a registration that fails is not in force -/
  failed : fails s e = true → ∀ p f r, e.1 = .registerFileEvent p f r →
    (f, r) ∉ regs (s.step e) p

/-- A file event is told to the registrations on the descriptor whose mask lets it through. -/
theorem mem_occurs {i : ℤ} {p q : String} {l : ActorRefList A} {r : A} {occ flags : Flags}
    (h : s.idents.lookup i = some (p, l)) :
    Sent.fileEvent r q flags ∈ occurs s i occ ↔ q = p ∧ ∃ mask, s.filters i = some mask ∧
      occ &&& mask ≠ 0 ∧ flags = occ &&& mask ∧ ∃ x ∈ l, x.2 = r ∧ forwards x.1 flags = true := by
  rcases hm : s.filters i with _ | mask
  · simp [occurs, hm]
  · by_cases h0 : occ &&& mask = 0
    · simp [occurs, hm, h0]
    · simp only [occurs, hm, if_neg h0, FEM.receive, h, List.mem_append, List.mem_map,
        List.mem_filter, List.mem_singleton, reduceCtorEq, or_false, Sent.fileEvent.injEq,
        Option.some.injEq]
      constructor
      · rintro ⟨x, ⟨hx, hfw⟩, rfl, rfl, rfl⟩
        exact ⟨rfl, mask, rfl, h0, rfl, x, hx, rfl, hfw⟩
      · rintro ⟨rfl, mask', rfl, -, rfl, x, hx, rfl, hfw⟩
        exact ⟨x, ⟨hx, hfw⟩, rfl, rfl, rfl⟩

/-- A failing registration leaves an empty map. -/
theorem step_fails (h : fails s e = true) : (s.step e).idents = ∅ := by
  obtain ⟨m, c⟩ := e
  simp only [fails, Bool.and_eq_true, Bool.or_eq_true, beq_iff_eq] at h
  cases m with
  | registerFileEvent p f r =>
    have hf := opens_register.mp h.1
    by_cases h1 : c.ident = -1
    · rw [step_openFailed hf h1]; rfl
    · rw [step_keventFailed hf h1 (h.2.resolve_left h1)]; rfl
  | unregisterFileEvent r => exact absurd h.1 Bool.false_ne_true
  | kqueueFileEvent i f => exact absurd h.1 Bool.false_ne_true

theorem regs_fails (h : fails s e = true) (p : String) : regs (s.step e) p = [] :=
  regs_eq_nil fun i l hl => by simp [step_fails h] at hl

omit [DecidableEq A] in
theorem granted_of_not_fails (he : Env s e) (h : fails s e = false) : Granted s e := by
  intro ho
  rw [fails, ho, Bool.true_and, Bool.or_eq_false_iff, beq_eq_false_iff_ne, beq_eq_false_iff_ne] at h
  exact ⟨h.1, he ho h.1, h.2⟩

omit [DecidableEq A] in
theorem not_fails_of_granted (hg : Granted s e) : fails s e = false := by
  rw [fails]
  rcases ho : opens s e.1 with _ | _
  · rfl
  · obtain ⟨h1, -, h2⟩ := hg ho
    simp [h1, h2]

/-- The registrations of an actor stay where they are, with the same mask. -/
def Keeps (s s' : FEM A) (r : A) : Prop :=
  ∀ i p l, s.idents.lookup i = some (p, l) → (∃ x ∈ l, x.2 = r) →
    ∃ l', s'.idents.lookup i = some (p, l') ∧ s'.filters i = s.filters i ∧
      ∀ x ∈ l, x.2 = r → x ∈ l'

theorem keeps_step (hg : Granted s e) {r : A} (hr : e.1 ≠ .unregisterFileEvent r) :
    Keeps s (s.step e) r := by
  intro i p l hl hx
  obtain ⟨m, c⟩ := e
  cases m with
  | registerFileEvent q f r' =>
    rcases hf : s.find q with _ | ⟨j, q', l'⟩
    · obtain ⟨h1, hi, h2⟩ := hg (opens_register.mpr hf)
      have hne : i ≠ c.ident := fun h => hi (h ▸ mem_of_lookup hl)
      rw [step_new hf h1 h2]
      exact ⟨l, (AList.lookup_insert_ne hne).trans hl, Function.update_of_ne hne _ _,
        fun x hx _ => hx⟩
    · obtain ⟨rfl, hl'⟩ := find_some hf
      rw [step_known hf]
      by_cases hij : i = j
      · subst hij
        rw [hl, Option.some.injEq, Prod.mk.injEq] at hl'
        obtain ⟨rfl, rfl⟩ := hl'
        exact ⟨_, AList.lookup_insert _, rfl, fun x hx _ => List.mem_append_left _ hx⟩
      · exact ⟨l, (AList.lookup_insert_ne hij).trans hl, rfl, fun x hx _ => hx⟩
  | unregisterFileEvent r' =>
    have hne : r ≠ r' := fun h => hr (by rw [h])
    have hkept : ∀ x ∈ l, x.2 = r → x ∈ l.filter fun x => x.2 ≠ r' := by
      intro x hx hxr
      exact List.mem_filter.mpr ⟨hx, by simpa [hxr] using hne⟩
    obtain ⟨x, hx, hxr⟩ := hx
    refine ⟨_, lookup_unregister_some.mpr ⟨l, hl, rfl, ?_⟩, rfl, hkept⟩
    exact List.ne_nil_of_mem (hkept x hx hxr)
  | kqueueFileEvent j f => exact ⟨l, hl, rfl, fun x hx _ => hx⟩

theorem Keeps.delivered {s' : FEM A} (hs : Inv s) (hs' : Inv s') {r : A} (h : Keeps s s' r)
    {p : String} (hp : ∃ x ∈ regs s p, x.2 = r) {occ flags : Flags}
    (hm : Sent.fileEvent r p flags ∈ occursOn s p occ) :
    Sent.fileEvent r p flags ∈ occursOn s' p occ := by
  obtain ⟨x, hx, hxr⟩ := hp
  obtain ⟨i, hl⟩ := hs.exists_lookup (List.ne_nil_of_mem hx)
  obtain ⟨l', hl', hfil, hsub⟩ := h i p _ hl ⟨x, hx, hxr⟩
  rw [occursOn, hs.find_eq hl] at hm
  rw [occursOn, hs'.find_eq hl']
  obtain ⟨-, mask, hmask, h0, hflags, y, hy, hyr, hfw⟩ := (mem_occurs hl).mp hm
  exact (mem_occurs hl').mpr ⟨rfl, mask, hfil.trans hmask, h0, hflags, y, hsub y hy hyr, hyr, hfw⟩

/-- A message that does not fail takes away what it unregisters. -/
theorem isolated_of_granted (hs : Inv s) (hg : Granted s e) : Isolated s e := by
  have hs' := inv_step hs hg.env
  refine ⟨fun p => ?_, fun p x hx hne occ flags hm => ?_, fun hf => ?_⟩
  · obtain ⟨m, c⟩ := e
    cases m with
    | registerFileEvent q f r =>
      rw [regs_register hs hg]
      refine List.Sublist.trans List.filter_sublist ?_
      by_cases hp : p = q
      · rw [if_pos hp, hp]; exact List.sublist_append_left _ _
      · rw [if_neg hp]
    | unregisterFileEvent r =>
      rw [regs_unregister hs]
      have hcongr : ∀ x ∈ regs s p, decide ((Msg.unregisterFileEvent r, c).1 ≠
          .unregisterFileEvent x.2) = decide (x.2 ≠ r) := by
        intro x _
        simp [eq_comm]
      rw [List.filter_congr hcongr]
    | kqueueFileEvent i f => exact List.filter_sublist
  · exact (keeps_step hg hne).delivered hs hs' ⟨x, hx, rfl⟩ hm
  · rw [not_fails_of_granted hg] at hf
    exact absurd hf Bool.false_ne_true

omit [DecidableEq A] in
theorem entries_eq_nil (hs : Inv s) : s.idents.entries = [] ↔ ∀ p, regs s p = [] := by
  rw [List.eq_nil_iff_forall_not_mem]
  constructor
  · exact fun h p => regs_eq_nil fun i l hl => h _ (AList.mem_lookup_iff.mp hl)
  · rintro h ⟨i, p, l⟩ hm
    have hl := AList.mem_lookup_iff.mpr hm
    exact hs.nonempty i p l hl ((hs.regs_eq hl).symm.trans (h p))

/-- **One message is isolated** iff it does not fail beside registrations. -/
theorem isolated_step (hs : Inv s) (he : Env s e) :
    Isolated s e ↔ (fails s e = true → s.idents.entries = []) := by
  rw [entries_eq_nil hs]
  rcases hf : fails s e with _ | _
  · exact ⟨fun _ h => absurd h Bool.false_ne_true,
      fun _ => isolated_of_granted hs (granted_of_not_fails he hf)⟩
  · have hreg : ∀ r, e.1 ≠ .unregisterFileEvent r := by
      intro r hr
      simp [fails, hr, opens] at hf
    constructor
    · intro h _ p
      have hk := h.kept p
      rw [regs_fails hf, List.sublist_nil] at hk
      rw [← hk, List.filter_eq_self.mpr fun x _ => by simpa using hreg x.2]
    · intro h
      refine ⟨fun p => ?_, fun p x hx => ?_, fun _ p f r _ => ?_⟩
      · rw [h rfl p]; exact List.nil_sublist _
      · rw [h rfl p] at hx; exact absurd hx List.not_mem_nil
      · rw [regs_fails hf]; exact List.not_mem_nil

/-- **A failed registration is isolated exactly when there are no registrations**: over a run of
messages registrations are lost through `SvdUnregisterFileEvent` only, what is told to the others is
still told, and a failed registration is not in force, iff every registration that fails finds the
registry empty. -/
theorem isolated_iff (evs : List (Msg A × Sys)) (henv : Meets FEM.step Env FEM.init evs) :
    Meets FEM.step Isolated FEM.init evs ↔
      Meets FEM.step (fun s e => fails s e = true → s.idents.entries = []) FEM.init evs :=
  meets_congr (P := Inv) (fun _ _ hs he => inv_step hs he) (fun _ _ hs he => isolated_step hs he)
    inv_init henv

/-- A registration fails before there are others. -/
theorem isolated_first : Meets FEM.step Isolated FEM.init
    [(.registerFileEvent "/missing" 0x06 1, ⟨-1, -1⟩),
      (.registerFileEvent "/a" 0x06 (2 : ℕ), ⟨4, 0⟩), (.unregisterFileEvent 1, ⟨-1, -1⟩)] :=
  (isolated_iff _ (by decide)).mpr (by decide)

/-- A registration fails beside that of another actor on another path, which is lost. -/
theorem not_isolated_beside : ¬ Meets FEM.step Isolated FEM.init
    [(.registerFileEvent "/a" 0x06 (1 : ℕ), ⟨4, 0⟩),
      (.registerFileEvent "/missing" 0x06 2, ⟨-1, -1⟩)] := by
  rintro ⟨-, h, -⟩
  have hk := (h.kept "/a").subset (a := ((0x06 : Flags), 1))
  exact absurd (hk (by decide)) (by decide)

/-! ### Descriptors -/

/-- The descriptors that are open are the keys of the map. -/
def Accounted (s : FEM A) : Prop := ∀ i, i ∈ s.opened ↔ i ∈ s.idents

/-- The message leaves no descriptor behind: `open` does not fail beside registrations, `kevent`
does not fail on a new path, and no path loses its last registration. -/
def Tidy (s : FEM A) (e : Msg A × Sys) : Prop :=
  match e.1 with
  | .registerFileEvent p _ _ => s.find p = none →
      if e.2.ident = -1 then s.idents.entries = [] else e.2.nev ≠ -1
  | .unregisterFileEvent r => ∀ x ∈ s.idents.entries, ∃ y ∈ x.2.2, y.2 ≠ r
  | .kqueueFileEvent _ _ => True

theorem mem_unregister {i : ℤ} {r : A} {c : Sys} :
    i ∈ (s.step (.unregisterFileEvent r, c)).idents ↔
      ∃ p l, s.idents.lookup i = some (p, l) ∧ ∃ y ∈ l, y.2 ≠ r := by
  rw [← AList.lookup_isSome, Option.isSome_iff_exists]
  constructor
  · rintro ⟨⟨p, l⟩, h⟩
    obtain ⟨l', hl', rfl, hne⟩ := lookup_unregister_some.mp h
    obtain ⟨y, hy⟩ := List.exists_mem_of_ne_nil _ hne
    obtain ⟨hy1, hy2⟩ := List.mem_filter.mp hy
    exact ⟨p, l', hl', y, hy1, by simpa using hy2⟩
  · rintro ⟨p, l, hl, y, hy, hyr⟩
    have hm : y ∈ l.filter fun x => x.2 ≠ r := List.mem_filter.mpr ⟨hy, by simpa using hyr⟩
    exact ⟨_, lookup_unregister_some.mpr ⟨l, hl, rfl, List.ne_nil_of_mem hm⟩⟩

instance (s : FEM A) : DecidablePred (Tidy s)
  | (.registerFileEvent p _ _, c) => inferInstanceAs (Decidable (s.find p = none →
      if c.ident = -1 then s.idents.entries = [] else c.nev ≠ -1))
  | (.unregisterFileEvent r, _) =>
    inferInstanceAs (Decidable (∀ x ∈ s.idents.entries, ∃ y ∈ x.2.2, y.2 ≠ r))
  | (.kqueueFileEvent _ _, _) => isTrue trivial

omit [DecidableEq A] in
theorem entries_eq_nil_iff : s.idents.entries = [] ↔ ∀ i, i ∉ s.idents := by
  rw [List.eq_nil_iff_forall_not_mem]
  constructor
  · intro h i hi
    obtain ⟨v, hv⟩ := Option.isSome_iff_exists.mp (AList.lookup_isSome.mpr hi)
    exact h _ (AList.mem_lookup_iff.mp hv)
  · rintro h ⟨i, v⟩ hm
    exact h i (mem_of_lookup (AList.mem_lookup_iff.mpr hm))

/-- One message keeps the account exactly when it is tidy. -/
theorem accounted_step (h : Accounted s) (e : Msg A × Sys) :
    Accounted (s.step e) ↔ Tidy s e := by
  obtain ⟨m, c⟩ := e
  cases m with
  | registerFileEvent p f r =>
    rcases hf : s.find p with _ | ⟨i, q, l⟩
    · have htidy : Tidy s (.registerFileEvent p f r, c) ↔
          if c.ident = -1 then s.idents.entries = [] else c.nev ≠ -1 := by simp [Tidy, hf]
      rw [htidy]
      by_cases h1 : c.ident = -1
      · rw [if_pos h1, step_openFailed hf h1, entries_eq_nil_iff]
        -- the keys are gone, the descriptors are not
        constructor
        · exact fun ha i hi => absurd ((ha i).mp ((h i).mpr hi)) (AList.notMem_empty i)
        · exact fun ha i => ⟨fun hi => absurd ((h i).mp hi) (ha i),
            fun hi => absurd hi (AList.notMem_empty i)⟩
      · rw [if_neg h1]
        by_cases h2 : c.nev = -1
        · rw [step_keventFailed hf h1 h2]
          refine ⟨fun ha => ?_, fun hn => absurd h2 hn⟩
          exact absurd ((ha c.ident).mp (Finset.mem_insert_self _ _)) (AList.notMem_empty _)
        · rw [step_new hf h1 h2]
          refine ⟨fun _ => h2, fun _ i => ?_⟩
          rw [Finset.mem_insert, h i]
          exact (AList.mem_insert _).symm
    · obtain ⟨rfl, hl⟩ := find_some hf
      rw [step_known hf]
      refine ⟨fun _ hn => by rw [hf] at hn; simp at hn, fun _ j => ?_⟩
      rw [h j]
      refine ⟨fun hj => (AList.mem_insert _).mpr (Or.inr hj), fun hj => ?_⟩
      rcases (AList.mem_insert _).mp hj with rfl | hj
      · exact mem_of_lookup hl
      · exact hj
  | unregisterFileEvent r =>
    constructor
    · rintro ha ⟨i, p, l⟩ hm
      have hl := AList.mem_lookup_iff.mpr hm
      obtain ⟨p', l', hl', hy⟩ := mem_unregister.mp ((ha i).mp ((h i).mpr (mem_of_lookup hl)))
      have heq := hl.symm.trans hl'
      rw [Option.some.injEq, Prod.mk.injEq] at heq
      rw [heq.2]; exact hy
    · intro ht i
      refine ⟨fun hi => ?_, fun hi => (h i).mpr (mem_of_mem_unregister hi)⟩
      obtain ⟨⟨p, l⟩, hl⟩ := Option.isSome_iff_exists.mp (AList.lookup_isSome.mpr ((h i).mp hi))
      exact mem_unregister.mpr ⟨p, l, hl, ht _ (AList.mem_lookup_iff.mp hl)⟩
  | kqueueFileEvent i f => exact ⟨fun _ => trivial, fun _ => h⟩

/-- **The open descriptors are the keys of the map exactly when nothing is left behind**: in every
state reached in a run of messages, iff each of its messages is tidy. -/
theorem accounted_iff (evs : List (Msg A × Sys)) :
    (∀ pre, pre <+: evs → Accounted (after pre)) ↔ Meets FEM.step Tidy FEM.init evs := by
  refine always_iff_meets (P := Accounted) (E := fun _ _ => True)
    (fun s e h _ => accounted_step h e) ?_ ?_
  · exact fun i => ⟨fun hi => absurd hi (Finset.notMem_empty i),
      fun hi => absurd hi (AList.notMem_empty i)⟩
  · exact meets_iff_split.mpr fun _ _ _ _ => trivial

/-- Dropping the last registration of a path leaves its descriptor open. -/
theorem not_accounted_dropped :
    ¬ Accounted (after [(.registerFileEvent "/a" 0x06 (1 : ℕ), ⟨4, 0⟩),
      (.unregisterFileEvent 1, ⟨-1, -1⟩)]) := by
  intro h
  exact absurd ((h 4).mp (by decide)) (by decide)

end ServeD.Utils.Faults
