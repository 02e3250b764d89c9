import ServeD.Lib.Cutting
import ServeD.Lib.Loops

/-! # Splitting a string

`split` of `utils.cc`. Iterators are positions in the string; the loop is a machine that stops at
its `break`. From any position it ends, and what it appends are the pieces of the rest
(`ends_body`), with the empty ones left out if they are not kept. -/

namespace ServeD.Launchers.Splitting

open ServeD.Lib.Cutting ServeD.Lib.Loops

/-- The variables of the loop; `finished` is set by `break`. -/
structure Scan where
  substart : ℕ
  result : List (List UInt8)
  finished : Bool
deriving Repr, DecidableEq

/-- One round of `while (true)`. -/
def body (s delim : List UInt8) (keepEmpty : Bool) (t : Scan) : Scan :=
  let subend := t.substart + search delim (s.drop t.substart)
  let temp := (s.drop t.substart).take (subend - t.substart)
  let result := if keepEmpty || !temp.isEmpty then t.result ++ [temp] else t.result
  if subend = s.length then { t with result := result, finished := true }
  else { t with substart := subend + delim.length, result := result }

/-- `split`, with a bound on the number of rounds. -/
def split (rounds : ℕ) (s delim : List UInt8) (keepEmpty : Bool) : Option (List (List UInt8)) :=
  if delim.isEmpty then some [s]
  else (loop Scan.finished (body s delim keepEmpty) rounds ⟨0, [], false⟩).map Scan.result

/-- The call returns `r`. -/
def Returns (s delim : List UInt8) (keepEmpty : Bool) (r : List (List UInt8)) : Prop :=
  ∃ rounds, split rounds s delim keepEmpty = some r

/-- The pieces that are appended. -/
def kept (keepEmpty : Bool) (ps : List (List UInt8)) : List (List UInt8) :=
  ps.filter fun p => keepEmpty || !p.isEmpty

theorem kept_cons (keepEmpty : Bool) (p : List UInt8) (ps result : List (List UInt8)) :
    (if keepEmpty || !p.isEmpty then result ++ [p] else result) ++ kept keepEmpty ps =
      result ++ kept keepEmpty (p :: ps) := by
  unfold kept
  rw [List.filter_cons]
  split_ifs
  · rw [List.append_assoc, List.singleton_append]
  · rfl

section Loop

variable {s delim : List UInt8} (keepEmpty : Bool)

/-- **One round** from a position in the string. Either it is the last one, or the position behind
the delimiter is further on in the string and its pieces are still to come. -/
theorem body_spec (hd : delim ≠ []) {t : Scan} (ht : t.finished = false)
    (hle : t.substart ≤ s.length) :
    ((body s delim keepEmpty t).finished = true ∧
        (body s delim keepEmpty t).result = t.result ++ kept keepEmpty
          (cut delim (s.drop t.substart))) ∨
      (body s delim keepEmpty t).finished = false ∧
        t.substart < (body s delim keepEmpty t).substart ∧
        (body s delim keepEmpty t).substart ≤ s.length ∧
        (body s delim keepEmpty t).result ++
            kept keepEmpty (cut delim (s.drop (body s delim keepEmpty t).substart)) =
          t.result ++ kept keepEmpty (cut delim (s.drop t.substart)) := by
  have hlen : (s.drop t.substart).length = s.length - t.substart := List.length_drop
  have hsearch := search_le (d := delim) (s.drop t.substart)
  have hcut := cut_eq_search hd (s.drop t.substart)
  have htemp : t.substart + search delim (s.drop t.substart) - t.substart =
      search delim (s.drop t.substart) := by omega
  by_cases hend : t.substart + search delim (s.drop t.substart) = s.length
  · left
    rw [if_pos (by omega)] at hcut
    unfold body
    rw [if_pos hend, htemp, hcut, ← kept_cons]
    exact ⟨rfl, (List.append_nil _).symm⟩
  · right
    have hpos : 0 < delim.length := List.length_pos_of_ne_nil hd
    have hadd := search_add_le (d := delim) (s := s.drop t.substart) (by omega)
    rw [if_neg (by omega), List.drop_drop] at hcut
    unfold body
    rw [if_neg hend, htemp, hcut, ← kept_cons, Nat.add_assoc]
    exact ⟨ht, by show t.substart < t.substart + _; omega,
      by show t.substart + _ ≤ s.length; omega, rfl⟩

/-- **The loop ends** and has appended the pieces of the rest. -/
theorem ends_body (hd : delim ≠ []) (m : ℕ) : ∀ t : Scan, s.length - t.substart ≤ m →
    t.finished = false → t.substart ≤ s.length →
    ∃ t', Ends Scan.finished (body s delim keepEmpty) t t' ∧
      t'.result = t.result ++ kept keepEmpty (cut delim (s.drop t.substart)) := by
  induction m with
  | zero =>
    intro t hm ht hle
    rcases body_spec keepEmpty hd ht hle with ⟨hfin, hres⟩ | ⟨-, hlt, hle', -⟩
    · exact ⟨_, (ends_step_iff ht).mpr ((ends_finished_iff hfin).mpr rfl), hres⟩
    · omega
  | succ m ih =>
    intro t hm ht hle
    rcases body_spec keepEmpty hd ht hle with ⟨hfin, hres⟩ | ⟨hgo, hlt, hle', hres⟩
    · exact ⟨_, (ends_step_iff ht).mpr ((ends_finished_iff hfin).mpr rfl), hres⟩
    · obtain ⟨t', hends, ht'⟩ := ih _ (by omega) hgo hle'
      exact ⟨t', (ends_step_iff ht).mpr hends, by rw [ht', hres]⟩

variable {keepEmpty}

theorem returns_iff (hd : delim ≠ []) {r : List (List UInt8)} :
    Returns s delim keepEmpty r ↔ r = kept keepEmpty (cut delim s) := by
  obtain ⟨t', hends, hres⟩ := ends_body keepEmpty hd (s.length - 0) ⟨0, [], false⟩
    (Nat.le_refl _) rfl (Nat.zero_le s.length)
  have hsplit : ∀ rounds, split rounds s delim keepEmpty =
      (loop Scan.finished (body s delim keepEmpty) rounds ⟨0, [], false⟩).map Scan.result := by
    intro rounds
    unfold split
    rw [if_neg (by simpa using hd)]
  constructor
  · rintro ⟨rounds, h⟩
    rw [hsplit] at h
    obtain ⟨t, ht, rfl⟩ := Option.map_eq_some_iff.mp h
    rw [Ends.unique ⟨rounds, ht⟩ hends, hres]
    rfl
  · rintro rfl
    obtain ⟨rounds, h⟩ := hends
    exact ⟨rounds, by rw [hsplit, h, Option.map_some, hres]; rfl⟩

end Loop

theorem kept_true (ps : List (List UInt8)) : kept true ps = ps :=
  List.filter_eq_self.mpr fun _ _ => rfl

/-- **Splitting and joining.** The call returns; the pieces joined by the delimiter are the string,
none of them has a delimiter in it, and there is one more than leftmost occurrences that do not
overlap. Without empty pieces it returns the others, in their order. -/
theorem split_join (s delim : List UInt8) (hd : delim ≠ []) :
    ∃ r, (∀ r', Returns s delim true r' ↔ r' = r) ∧ delim.intercalate r = s ∧
      (∀ p ∈ r, ¬ delim <:+: p) ∧ r.length = occurrences delim s + 1 ∧
      ∀ r', Returns s delim false r' ↔ r' = r.filter fun p => !p.isEmpty := by
  refine ⟨cut delim s, fun r' => ?_, intercalate_cut hd s, not_infix_of_mem_cut hd s,
    length_cut hd s, fun r' => returns_iff hd⟩
  rw [returns_iff hd, kept_true]

/-- A delimiter that overlaps itself, at both ends and twice in the middle. -/
theorem split_join_overlap :
    ([1, 1] : List UInt8) ≠ [] ∧ occurrences [1, 1] ([1, 1, 1, 2, 1, 1] : List UInt8) = 2 ∧
      split 3 [1, 1, 1, 2, 1, 1] [1, 1] true = some [[], [1, 2], []] ∧
      ∃ r, (∀ r', Returns [1, 1, 1, 2, 1, 1] [1, 1] true r' ↔ r' = r) ∧
        ([1, 1] : List UInt8).intercalate r = [1, 1, 1, 2, 1, 1] ∧
        (∀ p ∈ r, ¬ [1, 1] <:+: p) ∧ r.length = 3 ∧
        ∀ r', Returns [1, 1, 1, 2, 1, 1] [1, 1] false r' ↔ r' = r.filter fun p => !p.isEmpty :=
  ⟨by decide, by decide, by decide, split_join [1, 1, 1, 2, 1, 1] [1, 1] (by decide)⟩

end ServeD.Launchers.Splitting
