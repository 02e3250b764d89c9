import ServeD.Api.Records
import ServeD.Utils.FileEvents

/-! # Triggering services on file events

The handler of `SvdFileEvent` in `SvdAccountManager`: for each binding on the path it compares the
event's flags with the mask of the binding as numbers, where the file events manager, which sent the
event, has tested whether they share a bit. The two tests agree when the highest bit decides: see
`Agreeing` and `filtersAgree_iff`. -/

namespace ServeD.Managers.FileTrigger

open ServeD.Api.Records ServeD.Utils.FileEvents

/-- `SvdFileEvent(path, flags)`: the bindings whose service is sent `Notify.Ping`. -/
def triggered (bindings : List SvdFileEventBinding) (path : String) (flags : Flags) :
    List SvdFileEventBinding :=
  bindings.filter fun binding => path == binding.absoluteFilePath && flags.slt binding.flags

/-- The place of the highest bit. -/
def topBit (f : Flags) : ℕ := Nat.log2 f.toNat

/-- The event `f` and the mask `m` are not of a kind on which the two tests differ. -/
structure Agreeing (m f : Flags) : Prop where
  /-- the event has the higher bit, so it is not below the mask: they must share none -/
  above : topBit m < topBit f → ¬ Intersects f m
  /-- the mask has the higher bit, so the event is below it: they must share one -/
  below : topBit f < topBit m → Intersects f m
  /-- they share their highest bit: the event must be below the mask -/
  level : m ≠ 0 → topBit f = topBit m → f.toNat < m.toNat

/-- The service of the binding `b` is triggered by the events that it asked for, which are those
that the file events manager lets through. -/
structure FiltersAgree (bindings : List SvdFileEventBinding) (b : SvdFileEventBinding)
    (f : Flags) : Prop where
  asked : b ∈ triggered bindings b.absoluteFilePath f ↔ Intersects f b.flags
  forwarded : b ∈ triggered bindings b.absoluteFilePath f ↔ forwards b.flags f = true

theorem intersects_comm {f g : Flags} : Intersects f g ↔ Intersects g f := by
  unfold Intersects; rw [BitVec.and_comm]

theorem toNat_lt {f : Flags} (h : NoteMask f) : f.toNat < 256 := by
  have h1 := toNat_lt_of_noteMask h f
  rwa [BitVec.and_self] at h1

/-- On masks of `NOTE_*` bits the handler compares natural numbers. -/
theorem mem_triggered {bindings : List SvdFileEventBinding} {b : SvdFileEventBinding} {f : Flags}
    (hb : b ∈ bindings) (hm : NoteMask b.flags) (hf : NoteMask f) :
    b ∈ triggered bindings b.absoluteFilePath f ↔ f.toNat < b.flags.toNat := by
  have h1 := toNat_lt hm
  have h2 := toNat_lt hf
  have hi : ∀ g : Flags, g.toNat < 256 → g.toInt = g.toNat := by
    intro g hg
    rw [BitVec.toInt_eq_toNat_cond, if_pos (by omega)]
  simp only [triggered, List.mem_filter, hb, true_and, beq_self_eq_true, Bool.true_and,
    BitVec.slt, decide_eq_true_eq, hi f h2, hi b.flags h1]
  omega

theorem lt_of_topBit_lt {f g : Flags} (h : topBit f < topBit g) : f.toNat < g.toNat := by
  unfold topBit at h
  have hg : g.toNat ≠ 0 := by
    intro h0
    rw [h0] at h
    exact absurd h (Nat.not_lt_zero _)
  calc f.toNat < 2 ^ (f.toNat.log2 + 1) := Nat.lt_log2_self
    _ ≤ 2 ^ g.toNat.log2 := Nat.pow_le_pow_right (by decide) h
    _ ≤ g.toNat := Nat.log2_self_le hg

theorem intersects_of_topBit_eq {f g : Flags} (hf : f ≠ 0) (hg : g ≠ 0) (h : topBit f = topBit g) :
    Intersects f g := by
  intro h0
  have hfn : f.toNat ≠ 0 := fun h1 => hf (BitVec.toNat_inj.mp h1)
  have hgn : g.toNat ≠ 0 := fun h1 => hg (BitVec.toNat_inj.mp h1)
  have hbit : (f.toNat &&& g.toNat).testBit f.toNat.log2 = true := by
    unfold topBit at h
    rw [Nat.testBit_and, Nat.testBit_log2 hfn, h, Nat.testBit_log2 hgn]
    rfl
  rw [← BitVec.toNat_and, h0] at hbit
  simp at hbit

/-- **The two filters agree exactly on `Agreeing` masks**, for every path, every binding on it and
every non-empty set of events. -/
theorem filtersAgree_iff (bindings : List SvdFileEventBinding) (b : SvdFileEventBinding)
    (f : Flags) (hb : b ∈ bindings) (hm : NoteMask b.flags) (hf : NoteMask f) (h0 : f ≠ 0) :
    FiltersAgree bindings b f ↔ Agreeing b.flags f := by
  have htrig := mem_triggered hb hm hf
  have hfw : forwards b.flags f = true ↔ Intersects f b.flags :=
    (forwards_iff hm f).trans intersects_comm
  have hlaw : FiltersAgree bindings b f ↔ (f.toNat < b.flags.toNat ↔ Intersects f b.flags) := by
    constructor
    · exact fun h => htrig.symm.trans h.asked
    · exact fun h => ⟨htrig.trans h, (htrig.trans h).trans hfw.symm⟩
  rw [hlaw]
  constructor
  · intro h
    refine ⟨fun hlt hi => ?_, fun hlt => h.mp (lt_of_topBit_lt hlt), fun hne heq => ?_⟩
    · have h1 := lt_of_topBit_lt hlt
      have h2 := h.mpr hi
      omega
    · exact h.mpr (intersects_of_topBit_eq h0 hne heq)
  · intro h
    rcases lt_trichotomy (topBit f) (topBit b.flags) with hlt | heq | hgt
    · exact ⟨fun _ => h.below hlt, fun _ => lt_of_topBit_lt hlt⟩
    · by_cases hz : b.flags = 0
      · rw [hz]
        refine ⟨fun hlt => absurd hlt (Nat.not_lt_zero _), fun hi => ?_⟩
        exact absurd BitVec.and_zero hi
      · exact ⟨fun _ => intersects_of_topBit_eq h0 hz heq, fun _ => h.level hz heq⟩
    · have h1 := lt_of_topBit_lt hgt
      exact ⟨fun h2 => by omega, fun hi => absurd hi (h.above hgt)⟩

/-- A binding for all events is triggered by a single one below its highest. -/
theorem filtersAgree_write : FiltersAgree [⟨"/a", "svc", 0x7f, ⟨0, 1⟩, 0⟩]
    ⟨"/a", "svc", 0x7f, ⟨0, 1⟩, 0⟩ noteWrite :=
  (filtersAgree_iff _ _ _ (List.mem_singleton.mpr rfl) (by decide) (by decide) (by decide)).mpr
    ⟨by decide, by decide, by decide⟩

/-- A binding for modifications is not triggered by a modification. -/
theorem not_filtersAgree_modified : ¬ FiltersAgree
    [⟨"/a", "svc", noteWrite ||| noteExtend, ⟨0, 1⟩, 0⟩]
    ⟨"/a", "svc", noteWrite ||| noteExtend, ⟨0, 1⟩, 0⟩ (noteWrite ||| noteExtend) := by
  intro h
  have hm := h.asked.mpr (by decide)
  rw [show triggered _ _ _ = [] by decide] at hm
  exact absurd hm List.not_mem_nil

end ServeD.Managers.FileTrigger
