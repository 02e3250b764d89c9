import Mathlib.Data.List.Infix

/-! # Runs of a deterministic machine

A machine is a step function `step : σ → ε → σ`; its run over a list of events is the left fold.
`Meets step C s es` says that every event of the run meets the condition `C` in the state it finds.

* `run_invariant`, `Meets.invariant`: what one step preserves, a whole run preserves;
* `meets_iff_split`: the condition, event by event;
* `always_iff_meets`: a property that a step keeps exactly under `C` holds all along a run exactly
  when all of its steps meet `C`;
* `meets_congr`: conditions that agree along an invariant are met by the same runs;
* `EachEntry P log`: every entry of a log meets `P` after the entries before it. -/

namespace ServeD.Lib.Runs

variable {σ ε : Type*} {step : σ → ε → σ} {C : σ → ε → Prop}

/-- The state after the events `es`. -/
def run (step : σ → ε → σ) (s : σ) (es : List ε) : σ := es.foldl step s

@[simp] theorem run_nil (s : σ) : run step s [] = s := rfl

@[simp] theorem run_cons (s : σ) (e : ε) (es : List ε) :
    run step s (e :: es) = run step (step s e) es := rfl

theorem run_append (s : σ) (es fs : List ε) :
    run step s (es ++ fs) = run step (run step s es) fs := List.foldl_append

theorem run_concat (s : σ) (es : List ε) (e : ε) :
    run step s (es ++ [e]) = step (run step s es) e := by rw [run_append]; rfl

theorem run_invariant {P : σ → Prop} (hstep : ∀ s e, P s → P (step s e)) :
    ∀ (es : List ε) (s : σ), P s → P (run step s es)
  | [], _, h => h
  | e :: es, s, h => run_invariant hstep es (step s e) (hstep s e h)

/-- An invariant that the events in `Q` keep. -/
theorem run_invariant_of {P : σ → Prop} {Q : ε → Prop} (hstep : ∀ s e, P s → Q e → P (step s e)) :
    ∀ {es : List ε} {s : σ}, (∀ e ∈ es, Q e) → P s → P (run step s es)
  | [], _, _, h => h
  | e :: es, s, hq, h => by
    rw [run_cons]
    exact run_invariant_of hstep (fun e' he' => hq e' (List.mem_cons_of_mem e he'))
      (hstep s e h (hq e (by simp)))

/-- Every event of the run meets `C` in the state it finds. -/
def Meets (step : σ → ε → σ) (C : σ → ε → Prop) : σ → List ε → Prop
  | _, [] => True
  | s, e :: es => C s e ∧ Meets step C (step s e) es

instance Meets.decidable [∀ s e, Decidable (C s e)] :
    ∀ (s : σ) (es : List ε), Decidable (Meets step C s es)
  | _, [] => isTrue trivial
  | s, e :: es => @instDecidableAnd _ _ _ (Meets.decidable (step s e) es)

@[simp] theorem meets_nil (s : σ) : Meets step C s [] := trivial

@[simp] theorem meets_cons (s : σ) (e : ε) (es : List ε) :
    Meets step C s (e :: es) ↔ C s e ∧ Meets step C (step s e) es := Iff.rfl

theorem meets_append : ∀ (es fs : List ε) (s : σ),
    Meets step C s (es ++ fs) ↔ Meets step C s es ∧ Meets step C (run step s es) fs
  | [], fs, s => by simp
  | e :: es, fs, s => by
    rw [List.cons_append, meets_cons, meets_cons, meets_append es fs, run_cons, and_assoc]

theorem meets_concat (es : List ε) (e : ε) (s : σ) :
    Meets step C s (es ++ [e]) ↔ Meets step C s es ∧ C (run step s es) e := by
  rw [meets_append, meets_cons]; simp

theorem Meets.of_prefix {s : σ} {es fs : List ε} (h : Meets step C s fs) (hp : es <+: fs) :
    Meets step C s es := by
  obtain ⟨gs, rfl⟩ := hp
  exact ((meets_append es gs s).mp h).1

theorem Meets.mono {D : σ → ε → Prop} (hCD : ∀ s e, C s e → D s e) :
    ∀ {es : List ε} {s : σ}, Meets step C s es → Meets step D s es
  | [], _, _ => trivial
  | _ :: _, _, h => ⟨hCD _ _ h.1, Meets.mono hCD h.2⟩

theorem Meets.and_forall {Q : ε → Prop} : ∀ {es : List ε} {s : σ}, Meets step C s es →
    (∀ e ∈ es, Q e) → Meets step (fun s e => C s e ∧ Q e) s es
  | [], _, _, _ => trivial
  | e :: _, _, h, hq =>
    ⟨⟨h.1, hq e (by simp)⟩, h.2.and_forall fun e' he' => hq e' (List.mem_cons_of_mem e he')⟩

/-- The condition, event by event. -/
theorem meets_iff_split {es : List ε} {s : σ} :
    Meets step C s es ↔ ∀ pre e post, es = pre ++ e :: post → C (run step s pre) e := by
  constructor
  · rintro h pre e post rfl
    exact ((meets_append pre (e :: post) s).mp h).2.1
  · intro h
    induction es using List.reverseRecOn with
    | nil => trivial
    | append_singleton es e ih =>
      rw [meets_concat]
      refine ⟨ih fun pre e' post he => h pre e' (post ++ [e]) (by rw [he]; simp), ?_⟩
      exact h es e [] rfl

/-- An invariant that a step keeps when it meets `C`. -/
theorem Meets.invariant {P : σ → Prop} (hstep : ∀ s e, P s → C s e → P (step s e)) :
    ∀ {es : List ε} {s : σ}, Meets step C s es → P s → P (run step s es)
  | [], _, _, h => h
  | e :: es, s, hm, h => by
    rw [run_cons]
    exact Meets.invariant hstep hm.2 (hstep s e h hm.1)

/-- **Exactness**: if a step of the environment `E` keeps `P` exactly when it meets `C`, then `P`
holds all along a run exactly when all of its steps meet `C`. -/
theorem always_iff_meets {P : σ → Prop} {E : σ → ε → Prop}
    (hstep : ∀ s e, P s → E s e → (P (step s e) ↔ C s e)) :
    ∀ {es : List ε} {s : σ}, P s → Meets step E s es →
      ((∀ pre, pre <+: es → P (run step s pre)) ↔ Meets step C s es)
  | [], s, h, _ => by
    refine ⟨fun _ => trivial, fun _ pre hpre => ?_⟩
    rw [List.prefix_nil.mp hpre]; exact h
  | e :: es, s, h, hE => by
    have he := hstep s e h hE.1
    constructor
    · intro hall
      have h1 : P (step s e) := hall [e] ⟨es, rfl⟩
      refine ⟨he.mp h1, (always_iff_meets hstep h1 hE.2).mp fun pre hpre => ?_⟩
      exact hall (e :: pre) (List.cons_prefix_cons.mpr ⟨rfl, hpre⟩)
    · rintro ⟨hc, hm⟩ pre hpre
      have h1 : P (step s e) := he.mpr hc
      rcases pre with _ | ⟨e', pre⟩
      · exact h
      · obtain ⟨rfl, hpre'⟩ := List.cons_prefix_cons.mp hpre
        exact (always_iff_meets hstep h1 hE.2).mpr hm pre hpre'

/-- Two conditions that agree along an invariant of the environment `E` are met by the same runs. -/
theorem meets_congr {P : σ → Prop} {D E : σ → ε → Prop}
    (hstep : ∀ s e, P s → E s e → P (step s e)) (hCD : ∀ s e, P s → E s e → (C s e ↔ D s e)) :
    ∀ {es : List ε} {s : σ}, P s → Meets step E s es → (Meets step C s es ↔ Meets step D s es)
  | [], _, _, _ => Iff.rfl
  | e :: es, s, h, hE => by
    rw [meets_cons, meets_cons, hCD s e h hE.1, meets_congr hstep hCD (hstep s e h hE.1) hE.2]

/-- Two machines on the same events: what a step of both keeps between their states, a run keeps. -/
theorem Meets.simulates {τ : Type*} {step' : τ → ε → τ} {R : σ → τ → Prop}
    (hstep : ∀ s t e, R s t → C s e → R (step s e) (step' t e)) :
    ∀ {es : List ε} {s : σ} {t : τ}, Meets step C s es → R s t → R (run step s es) (run step' t es)
  | [], _, _, _, h => h
  | e :: es, s, t, hm, h => by
    rw [run_cons, run_cons]
    exact Meets.simulates hstep hm.2 (hstep s t e h hm.1)

/-! ### Logs -/

section Log

variable {α : Type*} {P : List α → α → Prop}

/-- Every entry of the log meets `P` after the entries before it. -/
def EachEntry (P : List α → α → Prop) (log : List α) : Prop :=
  ∀ pre e post, log = pre ++ e :: post → P pre e

theorem eachEntry_nil : EachEntry P [] := fun pre e post h => by simp at h

theorem eachEntry_concat {log : List α} {e : α} :
    EachEntry P (log ++ [e]) ↔ EachEntry P log ∧ P log e := by
  constructor
  · intro h
    refine ⟨fun pre e' post hl => h pre e' (post ++ [e]) (by rw [hl]; simp), h log e [] rfl⟩
  · rintro ⟨hlog, he⟩ pre e' post hl
    rcases List.eq_nil_or_concat post with rfl | ⟨post', x, rfl⟩
    · obtain ⟨rfl, rfl⟩ := List.append_singleton_inj.mp hl
      exact he
    · rw [List.concat_eq_append, ← List.cons_append, ← List.append_assoc] at hl
      exact hlog pre e' post' (List.append_singleton_inj.mp hl).1

end Log

end ServeD.Lib.Runs
