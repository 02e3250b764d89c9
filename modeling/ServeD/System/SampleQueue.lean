import Mathlib.Data.List.Basic
import Mathlib.Data.Int.Notation

/-! # The queue of samples

`DQueue` of `SvdWebSocketsHandler.scala`. A push may move an element out of `current` into `temp`,
and the element that fills `temp` replaces it by one average in `history`. `Keeps` says where the
elements pushed so far are; a push keeps it, so nothing is lost or doubled at either boundary. -/

namespace ServeD.System.SampleQueue

variable {T : Type}

/-- `dequeue` of an empty queue. -/
inductive NoSuchElement where
  | queueEmpty
deriving Repr, DecidableEq

/-- What a class with the trait defines. -/
structure DQueue (T : Type) where
  N : ℤ
  K : ℤ
  average : List T → T

/-- The three queues. -/
structure Queues (T : Type) where
  current : List T
  temp : List T
  history : List T
deriving Repr, DecidableEq

/-- A new object. -/
def Queues.empty : Queues T := ⟨[], [], []⟩

/-- `push`. -/
def push (d : DQueue T) (s : Queues T) (e : T) : Except NoSuchElement (Queues T) :=
  if d.N ≤ s.current.length then
    match s.current with
    | [] => .error .queueEmpty
    | x :: current =>
      let temp := s.temp ++ [x]
      if d.K ≤ temp.length then
        .ok { current := current ++ [e], temp := [], history := s.history ++ [d.average temp] }
      else .ok { s with current := current ++ [e], temp := temp }
  else .ok { s with current := s.current ++ [e] }

/-- One push after another. -/
def pushAll (d : DQueue T) (s : Queues T) (es : List T) : Except NoSuchElement (Queues T) :=
  es.foldlM (push d) s

structure SvdProcessUsage where
  pid : ℤ
  name : String
  rss : ℤ
deriving Repr, DecidableEq

/-- `SvdProcessQueue`: the last fifteen minutes by the second,
and what went before by the minute. -/
def svdProcessQueue : DQueue SvdProcessUsage where
  N := 60 * 15
  K := 60
  average := fun _ => { pid := 666, name := "SSS", rss := 0 }

/-! ### The three branches of a push -/

section Push

variable {d : DQueue T} {s : Queues T} {e x : T} {current : List T}

theorem push_of_lt (h : (s.current.length : ℤ) < d.N) :
    push d s e = .ok { s with current := s.current ++ [e] } := by
  unfold push
  rw [if_neg (by omega)]

theorem push_of_full (hc : s.current = x :: current) (hN : d.N ≤ s.current.length)
    (hK : d.K ≤ (s.temp ++ [x]).length) :
    push d s e = .ok { current := current ++ [e], temp := [],
                       history := s.history ++ [d.average (s.temp ++ [x])] } := by
  unfold push
  rw [if_pos hN, hc]
  exact if_pos hK

theorem push_of_room (hc : s.current = x :: current) (hN : d.N ≤ s.current.length)
    (hK : ((s.temp ++ [x]).length : ℤ) < d.K) :
    push d s e = .ok { s with current := current ++ [e], temp := s.temp ++ [x] } := by
  unfold push
  rw [if_pos hN, hc]
  exact if_neg (by omega)

end Push

/-! ### Where the elements are -/

/-- `xs` are in the queues, in order: `current` has the last ones, `temp` fewer than `K` before
these, and `history` an average for every `K` elements before them. -/
structure Keeps (d : DQueue T) (xs : List T) (s : Queues T) : Prop where
  length_current : (s.current.length : ℤ) = min (xs.length : ℤ) d.N
  length_temp : (s.temp.length : ℤ) < d.K
  chunks : ∃ chunks : List (List T), (∀ c ∈ chunks, (c.length : ℤ) = d.K) ∧
    s.history = chunks.map d.average ∧ chunks.flatten ++ s.temp ++ s.current = xs

theorem keeps_empty {d : DQueue T} (hN : 1 ≤ d.N) (hK : 1 ≤ d.K) :
    Keeps d [] (Queues.empty : Queues T) where
  length_current := by
    show ((0 : ℕ) : ℤ) = min ((0 : ℕ) : ℤ) d.N
    omega
  length_temp := by
    show ((0 : ℕ) : ℤ) < d.K
    omega
  chunks := ⟨[], by simp, rfl, rfl⟩

/-- **One push.** It succeeds and the element is kept with the others. -/
theorem Keeps.push {d : DQueue T} {xs : List T} {s : Queues T} (h : Keeps d xs s)
    (hN : 1 ≤ d.N) (e : T) :
    ∃ s', push d s e = .ok s' ∧ Keeps d (xs ++ [e]) s' := by
  obtain ⟨hc, ht, chunks, hlen, hhist, hxs⟩ := h
  have hxse : ((xs ++ [e]).length : ℤ) = xs.length + 1 := by simp
  rcases Int.lt_or_le (s.current.length : ℤ) d.N with hlt | hge
  · refine ⟨_, push_of_lt hlt, ⟨?_, ht, chunks, hlen, hhist, ?_⟩⟩
    · rw [List.length_append, List.length_singleton, hxse]
      omega
    · rw [← hxs]
      simp
  -- the oldest of `current` moves to `temp`
  obtain ⟨x, current, hcur⟩ := List.exists_cons_of_ne_nil (l := s.current) fun h0 => by
    rw [h0, List.length_nil] at hge
    omega
  have hlenc : ((current ++ [e]).length : ℤ) = min ((xs ++ [e]).length : ℤ) d.N := by
    rw [hcur, List.length_cons] at hc hge
    rw [List.length_append, List.length_singleton, hxse]
    omega
  have htemp : ((s.temp ++ [x]).length : ℤ) = s.temp.length + 1 := by simp
  rcases Int.lt_or_le ((s.temp ++ [x]).length : ℤ) d.K with hroom | hfull
  · refine ⟨_, push_of_room hcur hge hroom, ⟨hlenc, hroom, chunks, hlen, hhist, ?_⟩⟩
    rw [← hxs, hcur]
    simp
  · -- `temp` with `x` is one more chunk
    refine ⟨_, push_of_full hcur hge hfull, ⟨hlenc, ?_, chunks ++ [s.temp ++ [x]], ?_, ?_, ?_⟩⟩
    · show ((0 : ℕ) : ℤ) < d.K
      omega
    · intro c hmem
      rcases List.mem_append.mp hmem with hmem | hmem
      · exact hlen c hmem
      · rw [List.mem_singleton.mp hmem]
        omega
    · rw [hhist, List.map_append, List.map_singleton]
    · rw [← hxs, hcur]
      simp

theorem Keeps.pushAll {d : DQueue T} (hN : 1 ≤ d.N) : ∀ (es : List T) {xs : List T} {s : Queues T},
    Keeps d xs s → ∃ s', pushAll d s es = .ok s' ∧ Keeps d (xs ++ es) s'
  | [], xs, s, h => ⟨s, rfl, by rwa [List.append_nil]⟩
  | e :: es, xs, s, h => by
    obtain ⟨s₁, h1, hk1⟩ := h.push hN e
    obtain ⟨s', h2, hk2⟩ := Keeps.pushAll hN es hk1
    refine ⟨s', ?_, by rwa [List.append_cons]⟩
    show (SampleQueue.push d s e >>= fun s₁ => es.foldlM (SampleQueue.push d) s₁) = .ok s'
    rw [h1]
    exact h2

/-- **Everything pushed is kept.** After any number of pushes none has failed; `current` holds the
last `min n N` elements, `temp` fewer than `K` before them, and `history` the averages of the
consecutive chunks of `K` before these. -/
theorem pushAll_keeps (d : DQueue T) (hN : 1 ≤ d.N) (hK : 1 ≤ d.K) (xs : List T) :
    ∃ s, pushAll d Queues.empty xs = .ok s ∧
      s.current <:+ xs ∧ (s.current.length : ℤ) = min (xs.length : ℤ) d.N ∧
      (s.temp.length : ℤ) < d.K ∧
      ∃ chunks : List (List T), (∀ c ∈ chunks, (c.length : ℤ) = d.K) ∧
        s.history = chunks.map d.average ∧ chunks.flatten ++ s.temp ++ s.current = xs := by
  obtain ⟨s, hs, hk⟩ := (keeps_empty hN hK).pushAll hN xs
  rw [List.nil_append] at hk
  obtain ⟨chunks, hlen, hhist, hxs⟩ := hk.chunks
  exact ⟨s, hs, ⟨_, hxs⟩, hk.length_current, hk.length_temp, chunks, hlen, hhist, hxs⟩

/-- The sum of a chunk. -/
def total (elems : List ℤ) : ℤ := elems.foldl (fun a b => a + b) 0

/-- Two elements kept, sums of three: five pushes move three out, and these make a sum. -/
theorem pushAll_keeps_five :
    (1 : ℤ) ≤ 2 ∧ (1 : ℤ) ≤ 3 ∧
      pushAll ⟨2, 3, total⟩ Queues.empty [1, 2, 3, 4, 5] = .ok (⟨[4, 5], [], [6]⟩ : Queues ℤ) ∧
      ∃ s : Queues ℤ, pushAll ⟨2, 3, total⟩ Queues.empty [1, 2, 3, 4, 5] = .ok s ∧
        s.current <:+ [1, 2, 3, 4, 5] ∧ (s.current.length : ℤ) = min (5 : ℤ) 2 ∧
        (s.temp.length : ℤ) < 3 ∧
        ∃ chunks : List (List ℤ), (∀ c ∈ chunks, (c.length : ℤ) = 3) ∧
          s.history = chunks.map total ∧ chunks.flatten ++ s.temp ++ s.current = [1, 2, 3, 4, 5] :=
  ⟨by decide, by decide, by decide, pushAll_keeps ⟨2, 3, total⟩ (by decide) (by decide)
    [1, 2, 3, 4, 5]⟩

end ServeD.System.SampleQueue
