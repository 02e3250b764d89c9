import Mathlib.Data.Int.Notation
import Mathlib.Data.List.TakeWhile

/-! # Strings in buffers

The functions of `string.h` on a buffer of fixed size. An access outside of the buffer has no result
(`none`), so that a computation with a result has made none.

* `strlen_eq_some`, `strlen_eq_none`: the length is that of the string up to the first NUL, if there
  is one;
* `Filled.copy`, `Filled.append`: copying and appending leave a string, and the bytes behind it as
  they were;
* `copy_eq_none`, `append_eq_none`: they fail if there is no room for the string and its NUL. -/

namespace ServeD.Lib.CStrings

/-- A string without its NUL. -/
structure CString where
  bytes : List UInt8
  noNul : 0 ∉ bytes

/-- A buffer of `n` bytes. -/
structure Buffer (n : ℕ) where
  bytes : List UInt8
  length_eq : bytes.length = n

variable {n : ℕ}

/-- What is in the buffer up to the first NUL. -/
def Buffer.text (b : Buffer n) : List UInt8 := b.bytes.takeWhile (· != 0)

def Buffer.Terminated (b : Buffer n) : Prop := 0 ∈ b.bytes

/-- `b[i]` -/
def Buffer.read (b : Buffer n) (i : ℤ) : Option UInt8 := if 0 ≤ i then b.bytes[i.toNat]? else none

/-- Some bytes from the position `i` on are written. -/
def Buffer.write (b : Buffer n) (i : ℕ) (bs : List UInt8) : Option (Buffer n) :=
  if h : i + bs.length ≤ n then
    some
      { bytes := b.bytes.take i ++ (bs ++ b.bytes.drop (i + bs.length))
        length_eq := by
          have hlen := b.length_eq
          rw [List.length_append, List.length_append, List.length_take, List.length_drop]
          omega }
  else none

def Buffer.strlen (b : Buffer n) : Option ℕ :=
  if b.text.length < n then some b.text.length else none

/-- `strncpy(b, src, k)`: exactly `k` bytes are written. -/
def Buffer.strncpy (b : Buffer n) (src : List UInt8) (k : ℕ) : Option (Buffer n) :=
  b.write 0 (src.take k ++ List.replicate (k - src.length) 0)

/-- `strncat(b, src, k)`: at most `k` bytes of the source, and a NUL. -/
def Buffer.strncat (b : Buffer n) (src : List UInt8) (k : ℕ) : Option (Buffer n) :=
  b.strlen.bind fun len => b.write len (src.take k ++ [0])

/-! ### Lengths -/

section Lengths

variable {b b' : Buffer n} {s t : List UInt8}

/-- The buffer holds the string `s`. -/
def Buffer.Holds (b : Buffer n) (s : List UInt8) : Prop := ∃ rest, b.bytes = s ++ 0 :: rest ∧ 0 ∉ s

theorem takeWhile_of_not_mem (h : (0 : UInt8) ∉ s) (rest : List UInt8) :
    (s ++ 0 :: rest).takeWhile (· != 0) = s := by
  have hs : ∀ c ∈ s, (c != 0) = true := by
    intro c hc
    refine bne_iff_ne.mpr ?_
    rintro rfl
    exact h hc
  rw [List.takeWhile_append_of_pos hs]
  simp

theorem Buffer.Holds.text_eq (h : b.Holds s) : b.text = s := by
  obtain ⟨rest, hbytes, hs⟩ := h
  rw [Buffer.text, hbytes, takeWhile_of_not_mem hs]

theorem Buffer.Holds.length_lt (h : b.Holds s) : s.length < n := by
  obtain ⟨rest, hbytes, -⟩ := h
  have hlen := b.length_eq
  rw [hbytes, List.length_append, List.length_cons] at hlen
  omega

theorem Buffer.Holds.terminated (h : b.Holds s) : b.Terminated := by
  obtain ⟨rest, hbytes, -⟩ := h
  rw [Terminated, hbytes]
  exact List.mem_append_right s List.mem_cons_self

theorem Buffer.Holds.getElem?_length (h : b.Holds s) : b.bytes[s.length]? = some 0 := by
  obtain ⟨rest, hbytes, -⟩ := h
  rw [hbytes, List.getElem?_append_right (Nat.le_refl _), Nat.sub_self, List.getElem?_cons_zero]

theorem Buffer.strlen_eq_some (h : b.Holds s) : b.strlen = some s.length := by
  rw [strlen, h.text_eq, if_pos h.length_lt]

theorem Buffer.strlen_eq_none (h : ¬ b.Terminated) : b.strlen = none := by
  have htext : b.text = b.bytes := by
    refine List.takeWhile_eq_self_iff.mpr fun c hc => bne_iff_ne.mpr ?_
    rintro rfl
    exact h hc
  rw [strlen, htext, b.length_eq, if_neg (Nat.lt_irrefl n)]

/-- The last byte of a string. -/
theorem Buffer.read_last (h : b.Holds s) (hs : s ≠ []) :
    b.read ((s.length : ℤ) - 1) = some (s.getLast hs) := by
  have hpos := List.length_pos_iff.mpr hs
  obtain ⟨rest, hbytes, -⟩ := h
  have hindex : ((s.length : ℤ) - 1).toNat = s.length - 1 := by omega
  rw [read, if_pos (by omega), hindex, hbytes, List.getElem?_append_left (by omega),
    List.getLast_eq_getElem, List.getElem?_eq_getElem]

/-- There is nothing in front of the buffer. -/
theorem Buffer.read_neg (b : Buffer n) : b.read (-1) = none := if_neg (by omega)

end Lengths

/-! ### Writes -/

section Writes

variable {b b' : Buffer n} {s t bs : List UInt8} {i j k : ℕ}

theorem Buffer.write_eq_none (h : n < i + bs.length) : b.write i bs = none := dif_neg (by omega)

theorem Buffer.exists_write (b : Buffer n) (i : ℕ) (bs : List UInt8) (h : i + bs.length ≤ n) :
    ∃ b', b.write i bs = some b' ∧ b'.bytes = b.bytes.take i ++
      (bs ++ b.bytes.drop (i + bs.length)) :=
  ⟨_, dif_pos h, rfl⟩

/-- **The buffer holds a string, and behind it what was there.** -/
structure Filled (b : Buffer n) (s : List UInt8) (b' : Buffer n) : Prop where
  holds : b'.Holds s
  kept : ∀ j, s.length < j → b'.bytes[j]? = b.bytes[j]?

theorem Filled.self (h : b.Holds s) : Filled b s b := ⟨h, fun _ _ => rfl⟩

/-- Copying a string and writing its NUL. -/
def Buffer.copy (b : Buffer n) (s : List UInt8) : Option (Buffer n) :=
  (b.strncpy s s.length).bind fun copied => copied.write s.length [0]

theorem strncpy_length (b : Buffer n) (s : List UInt8) : b.strncpy s s.length = b.write 0 s := by
  rw [Buffer.strncpy, List.take_length, Nat.sub_self, List.replicate_zero, List.append_nil]

theorem Filled.copy (b : Buffer n) (hs : 0 ∉ s) (h : s.length < n) :
    ∃ b', b.copy s = some b' ∧ Filled b s b' := by
  obtain ⟨copied, hcopied, hbytes⟩ := b.exists_write 0 s (by omega)
  obtain ⟨b', hb', hbytes'⟩ := copied.exists_write s.length [0] (Nat.succ_le_of_lt h)
  have hall : b'.bytes = s ++ 0 :: b.bytes.drop (s.length + 1) := by
    rw [hbytes', hbytes]
    simp
  refine ⟨b', ?_, ⟨_, hall, hs⟩, fun j hj => ?_⟩
  · rw [Buffer.copy, strncpy_length, hcopied, Option.bind_some, hb']
  · obtain ⟨d, rfl⟩ := Nat.exists_eq_add_of_lt hj
    rw [hall]
    simp [List.getElem?_append_right, Nat.add_assoc, Nat.add_comm 1]

theorem copy_eq_none (b : Buffer n) (h : n ≤ s.length) : b.copy s = none := by
  rw [Buffer.copy, strncpy_length]
  rcases hcopied : b.write 0 s with _ | copied
  · rfl
  · exact Buffer.write_eq_none (Nat.lt_succ_of_le h)

/-- **Appending** at most `k` bytes. -/
theorem Filled.append (h : Filled b s b') (ht : 0 ∉ t) (hlen : s.length + (t.take k).length < n) :
    ∃ b'', b'.strncat t k = some b'' ∧ Filled b (s ++ t.take k) b'' := by
  obtain ⟨b'', hb'', hbytes⟩ := b'.exists_write s.length (t.take k ++ [0]) (by
    rw [List.length_append, List.length_singleton]
    omega)
  obtain ⟨rest, hrest, hs⟩ := h.holds
  have hall : b''.bytes = (s ++ t.take k) ++ 0 :: b'.bytes.drop
    (s.length + ((t.take k).length + 1)) := by
    have htake : b'.bytes.take s.length = s := by rw [hrest, List.take_left]
    rw [hbytes, htake, List.length_append, List.length_singleton]
    simp only [List.append_assoc, List.singleton_append]
  refine ⟨b'', ?_, ⟨_, hall, ?_⟩, fun j hj => ?_⟩
  · rw [Buffer.strncat, Buffer.strlen_eq_some h.holds, Option.bind_some, hb'']
  · exact fun hmem => (List.mem_append.mp hmem).elim hs fun hmem => ht (List.mem_of_mem_take hmem)
  · rw [List.length_append] at hj
    obtain ⟨d, rfl⟩ := Nat.exists_eq_add_of_lt hj
    rw [← h.kept _ (by omega), hall, ← List.length_append, List.getElem?_append_right (by omega)]
    have hindex : (s ++ t.take k).length + d + 1 - (s ++ t.take k).length = d + 1 := by omega
    rw [hindex, List.getElem?_cons_succ, List.getElem?_drop]
    congr 1
    rw [List.length_append]
    omega

theorem append_eq_none (h : b.Holds s) (hlen : n ≤ s.length + (t.take k).length) :
    b.strncat t k = none := by
  rw [Buffer.strncat, Buffer.strlen_eq_some h, Option.bind_some]
  refine Buffer.write_eq_none ?_
  rw [List.length_append, List.length_singleton]
  omega

/-- **Copying with padding**: a string that is too long is cut, without a NUL. -/
theorem Buffer.exists_strncpy (b : Buffer n) (src : List UInt8) (h : k ≤ n) :
    ∃ b', b.strncpy src k = some b' ∧
    b'.bytes = src.take k ++ (List.replicate (k - src.length) 0 ++ b.bytes.drop k) := by
  have hlen : (src.take k ++ List.replicate (k - src.length) 0).length = k := by
    rw [List.length_append, List.length_take, List.length_replicate]
    omega
  obtain ⟨b', hb', hbytes⟩ :=
    b.exists_write 0 (src.take k ++ List.replicate (k - src.length) 0) (by omega)
  refine ⟨b', hb', ?_⟩
  rw [hbytes, hlen, List.take_zero, List.nil_append, Nat.zero_add, List.append_assoc]

end Writes

end ServeD.Lib.CStrings
