import Mathlib.Data.List.Basic

/-! # Transducers, and readers that push letters back

A transducer reads a letter and writes a word. A reader gives out one letter of its output at a
time: when a word is longer than that it puts a letter back in front of its buffer, such that what
it will give out is the rest of the word.

`Carries t s₀ raw sent s buf`: of the output for `raw`, `sent` was given out, and the rest is the
output for the buffer from the state `s`. New letters behind the buffer keep this (`put`), and so
does giving out the first letter (`emit`). -/

namespace ServeD.Lib.Transducers

structure Transducer (σ α β : Type*) where
  next : σ → α → σ
  word : σ → α → List β

variable {σ α β : Type*} {t : Transducer σ α β}

namespace Transducer

/-- The state after some letters. -/
def last (t : Transducer σ α β) (s : σ) (as : List α) : σ := as.foldl t.next s

/-- What is written for some letters. -/
def out (t : Transducer σ α β) : σ → List α → List β
  | _, [] => []
  | s, a :: as => t.word s a ++ out t (t.next s a) as

@[simp] theorem out_nil (s : σ) : t.out s [] = [] := rfl

@[simp] theorem out_cons (s : σ) (a : α) (as : List α) :
    t.out s (a :: as) = t.word s a ++ t.out (t.next s a) as := rfl

@[simp] theorem last_nil (s : σ) : t.last s [] = s := rfl

@[simp] theorem last_cons (s : σ) (a : α) (as : List α) :
    t.last s (a :: as) = t.last (t.next s a) as := rfl

theorem last_append (s : σ) (as bs : List α) : t.last s (as ++ bs) = t.last (t.last s as) bs :=
  List.foldl_append

theorem out_append : ∀ (s : σ) (as bs : List α), t.out s (as ++ bs) = t.out s as ++ t.out
    (t.last s as) bs
  | s, [], bs => rfl
  | s, a :: as, bs => by
    rw [List.cons_append, out_cons, out_cons, last_cons, out_append (t.next s a) as bs,
      List.append_assoc]

/-- What holds of every word that is written, given what was written before it and the state. -/
theorem out_invariant {P : σ → List β → Prop} (hstep : ∀ s a bs, P s bs →
      P (t.next s a) (bs ++ t.word s a)) :
    ∀ (as : List α) (s : σ) (bs : List β), P s bs → P (t.last s as) (bs ++ t.out s as)
  | [], s, bs, h => by simpa using h
  | a :: as, s, bs, h => by
    rw [last_cons, out_cons, ← List.append_assoc]
    exact out_invariant hstep as (t.next s a) (bs ++ t.word s a) (hstep s a bs h)

end Transducer

/-- Of the output for `raw`, `sent` was given out, and the rest comes from the buffer. -/
structure Carries (t : Transducer σ α β) (s₀ : σ) (raw : List α) (sent : List β) (s : σ)
    (buf : List α) : Prop where
  out : t.out s₀ raw = sent ++ t.out s buf
  last : t.last s₀ raw = t.last s buf

namespace Carries

variable {s₀ s s' : σ} {raw buf buf' : List α} {sent bs : List β}

theorem start (s₀ : σ) : Carries t s₀ [] [] s₀ [] := ⟨rfl, rfl⟩

/-- Letters come in behind the buffer. -/
theorem put (h : Carries t s₀ raw sent s buf) (as : List α) :
    Carries t s₀ (raw ++ as) sent s (buf ++ as) where
  out := by rw [t.out_append, h.out, h.last, t.out_append, List.append_assoc]
  last := by rw [t.last_append, h.last, t.last_append]

/-- A part of the output is given out. -/
theorem emit (h : Carries t s₀ raw sent s buf) (hout : t.out s buf = bs ++ t.out s' buf')
    (hlast : t.last s buf = t.last s' buf') : Carries t s₀ raw (sent ++ bs) s' buf' where
  out := by rw [h.out, hout, List.append_assoc]
  last := h.last.trans hlast

/-- The first letter is taken, and its word given out. -/
theorem take {a : α} (h : Carries t s₀ raw sent s (a :: buf)) :
    Carries t s₀ raw (sent ++ t.word s a) (t.next s a) buf := h.emit rfl rfl

/-- The first letter is taken, and another is put back for all but the beginning of its word. -/
theorem pushBack {a a' : α} {b : β} (h : Carries t s₀ raw sent s (a :: buf))
    (hword : t.word s a = b :: t.word s' a') (hnext : t.next s a = t.next s' a') :
    Carries t s₀ raw (sent ++ [b]) s' (a' :: buf) := by
  refine h.emit ?_ ?_
  · rw [t.out_cons, hword, hnext]
    rfl
  · rw [t.last_cons, hnext]
    rfl

theorem begins (h : Carries t s₀ raw sent s buf) : sent <+: t.out s₀ raw := ⟨_, h.out.symm⟩

/-- With an empty buffer everything was given out. -/
theorem drained (h : Carries t s₀ raw sent s []) : sent = t.out s₀ raw := by
  rw [h.out, t.out_nil, List.append_nil]

end Carries

end ServeD.Lib.Transducers
