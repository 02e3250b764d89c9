import ServeD.Utils.Registry

/-! # Delivery of file events

The kernel reports on a descriptor the event bits that are in the mask it was given (`occurs`). The
mask is set once, when the first registration opens the file: a later registration on the same path
only joins the list. So the masks cover all registrations, and every event asked for is told,
exactly as long as every later registration asks for nothing beyond the mask (`delivery_iff`). -/

namespace ServeD.Utils.Delivery

open ServeD.Lib.Runs ServeD.Utils.FileEvents ServeD.Utils.Registry

variable {A : Type} [DecidableEq A] {s : FEM A}

/-- What the manager sends when the events `occ` happen to the file of a descriptor: the kernel
reports those that are in the descriptor's mask. -/
def occurs (s : FEM A) (i : ℤ) (occ : Flags) : List (Sent A) :=
  match s.filters i with
  | some mask =>
    if occ &&& mask = 0 then []
    else (s.receive ⟨-1, -1⟩ (.kqueueFileEvent i (occ &&& mask))).sent
  | none => []

omit [DecidableEq A] in
/-- The mask of each descriptor contains the flags of all its registrations. -/
def Covered (s : FEM A) : Prop :=
  ∀ i p l, s.idents.lookup i = some (p, l) → ∀ x ∈ l,
    ∃ mask, s.filters i = some mask ∧ x.1 &&& mask = x.1

/-- The masks cover the registrations, and an event that a registration asks for is told. -/
structure DeliveryLaw (s : FEM A) : Prop where
  covered : Covered s
  delivered : ∀ i p l, s.idents.lookup i = some (p, l) → ∀ x ∈ l, ∀ occ, NoteMask occ →
    Intersects x.1 occ → ∃ flags, Sent.fileEvent x.2 p flags ∈ occurs s i occ

theorem forwards_comm (f g : Flags) : forwards f g = forwards g f := by
  unfold forwards; rw [BitVec.and_comm]

theorem noteMask_and {f : Flags} (h : NoteMask f) (g : Flags) : NoteMask (f &&& g) := by
  unfold NoteMask at h ⊢
  rw [BitVec.and_assoc, BitVec.and_comm g, ← BitVec.and_assoc, h]

/-- Within the mask nothing is lost. -/
theorem Covered.delivery (h : Covered s) : DeliveryLaw s := by
  refine ⟨h, fun i p l hl x hx occ hocc hint => ?_⟩
  obtain ⟨mask, hm, hx1⟩ := h i p l hl x hx
  have hand : x.1 &&& (occ &&& mask) = x.1 &&& occ := by
    rw [BitVec.and_comm occ, ← BitVec.and_assoc, hx1]
  have hint' : Intersects x.1 (occ &&& mask) := by unfold Intersects; rw [hand]; exact hint
  have hne : occ &&& mask ≠ 0 := by
    intro h0
    apply hint'
    rw [h0]; exact BitVec.and_zero
  have hfw : forwards x.1 (occ &&& mask) = true := by
    rw [forwards_comm, forwards_iff (noteMask_and hocc mask)]
    unfold Intersects at hint' ⊢
    rw [BitVec.and_comm]; exact hint'
  refine ⟨occ &&& mask, ?_⟩
  simp only [occurs, hm, if_neg hne, FEM.receive, hl]
  refine List.mem_append_left _ (List.mem_map.mpr ⟨x, List.mem_filter.mpr ⟨hx, hfw⟩, rfl⟩)

/-- A registration on a path that is already watched asks for nothing beyond the mask that the
path's descriptor was registered with. -/
def contained (s : FEM A) : Msg A → Bool
  | .registerFileEvent p f _ =>
    (s.find p).all fun e => (s.filters e.1).any fun mask => f &&& mask == f
  | _ => true

/-- One message keeps the masks covering exactly when it is `contained`. -/
theorem covered_step (hs : Inv s) (h : Covered s) {e : Msg A × Sys} (he : Env s e) :
    Covered (s.step e) ↔ contained s e.1 = true := by
  obtain ⟨m, c⟩ := e
  cases m with
  | registerFileEvent p f r =>
    rcases hf : s.find p with _ | ⟨i, q, l⟩
    · refine ⟨fun _ => by simp [contained, hf], fun _ => ?_⟩
      by_cases h1 : c.ident = -1
      · rw [step_openFailed hf h1]
        exact fun j q m hj => by simp [FEM.restart] at hj
      · by_cases h2 : c.nev = -1
        · rw [step_keventFailed hf h1 h2]
          exact fun j q m hj => by simp [FEM.restart] at hj
        · rw [step_new hf h1 h2]
          intro j q m hj x hx
          rcases lookup_insert_cases hj with ⟨rfl, heq⟩ | ⟨hji, hj⟩
          · rw [(Prod.mk.inj heq).2, List.mem_singleton] at hx
            exact ⟨f, Function.update_self _ _ _, by rw [hx, BitVec.and_self]⟩
          · obtain ⟨mask, hm, hx1⟩ := h j q m hj x hx
            exact ⟨mask, (Function.update_of_ne hji _ _).trans hm, hx1⟩
    · obtain ⟨rfl, hl⟩ := find_some hf
      obtain ⟨mask, hm⟩ := hs.filtered i (mem_of_lookup hl)
      have hc : contained s (.registerFileEvent q f r) = true ↔ f &&& mask = f := by
        simp [contained, hf, hm]
      rw [hc, step_known hf]
      constructor
      · intro hcov
        obtain ⟨mask', hm', hf'⟩ := hcov i q _ (AList.lookup_insert _) (f, r) (by simp)
        obtain rfl : mask = mask' := Option.some.inj (hm.symm.trans hm')
        exact hf'
      · intro hfm j q' m hj x hx
        rcases lookup_insert_cases hj with ⟨rfl, heq⟩ | ⟨-, hj⟩
        · rw [(Prod.mk.inj heq).2, List.mem_append, List.mem_singleton] at hx
          rcases hx with hx | rfl
          · exact h j q l hl x hx
          · exact ⟨mask, hm, hfm⟩
        · exact h j q' m hj x hx
  | unregisterFileEvent r =>
    refine ⟨fun _ => rfl, fun _ i p l hl x hx => ?_⟩
    obtain ⟨l', hl', rfl, -⟩ := lookup_unregister_some.mp hl
    exact h i p l' hl' x (List.mem_of_mem_filter hx)
  | kqueueFileEvent i f => exact ⟨fun _ => rfl, fun _ => h⟩

/-- **Delivery is complete exactly when no registration goes beyond the mask of its path**: over a
run of messages, in every state reached the masks cover all registrations and every event asked for
is told, iff each registration on a watched path asks for bits that its first registration asked
for. -/
theorem delivery_iff (evs : List (Msg A × Sys)) (henv : Meets FEM.step Env FEM.init evs) :
    (∀ pre, pre <+: evs → DeliveryLaw (after pre)) ↔
      Meets FEM.step (fun s e => contained s e.1 = true) FEM.init evs := by
  have hcov : (∀ pre, pre <+: evs → Inv (after pre) ∧ Covered (after pre)) ↔
      Meets FEM.step (fun s e => contained s e.1 = true) FEM.init evs := by
    refine always_iff_meets (P := fun s => Inv s ∧ Covered s) (E := Env) ?_ ?_ henv
    · rintro s e ⟨hs, hc⟩ he
      rw [← covered_step hs hc he]
      exact ⟨fun h => h.2, fun h => ⟨inv_step hs he, h⟩⟩
    · exact ⟨inv_init, fun i p l hl => by simp [FEM.init] at hl⟩
  rw [← hcov]
  constructor
  · exact fun h pre hp => ⟨inv_after (henv.of_prefix hp), (h pre hp).covered⟩
  · exact fun h pre hp => (h pre hp).2.delivery

/-- A second actor asks for a part of what the first one asked for. -/
theorem delivery_contained :
    DeliveryLaw (A := ℕ) (after [(.registerFileEvent "/a" 0x06 1, ⟨4, 0⟩),
      (.registerFileEvent "/a" 0x02 2, ⟨-1, -1⟩), (.unregisterFileEvent 1, ⟨-1, -1⟩)]) :=
  (delivery_iff _ (by decide)).mpr (by decide) _ List.prefix_rfl

/-- The second actor asks for `NOTE_WRITE` on a file registered with `NOTE_DELETE`. -/
theorem not_delivery_secondActor :
    ¬ DeliveryLaw (A := ℕ) (after [(.registerFileEvent "/a" noteDelete 1, ⟨4, 0⟩),
      (.registerFileEvent "/a" noteWrite 2, ⟨-1, -1⟩)]) := by
  intro h
  obtain ⟨flags, hm⟩ := h.delivered 4 "/a" [(noteDelete, 1), (noteWrite, 2)] (by decide)
    (noteWrite, 2) (by decide) noteWrite (by decide) (by decide)
  exact absurd hm (by rw [show occurs _ 4 noteWrite = [] by decide]; exact List.not_mem_nil)

end ServeD.Utils.Delivery
