import Mathlib.Data.List.Basic
import Mathlib.Tactic.Cases

/-! # Texts

Texts as lists of characters: their UTF-8 bytes and UTF-16 code units, and the lines that a reader
finds in them, which end with `\n`, `\r` or `\r\n`. -/

namespace ServeD.Lib.Texts

abbrev Text := List Char

/-! ### UTF-8 and UTF-16 -/

def utf8 (s : Text) : List UInt8 := s.flatMap String.utf8EncodeChar

/-- The text of some bytes, if they are valid. -/
def utf8Decode (bytes : List UInt8) : Option Text := bytes.toByteArray.utf8Decode?.map Array.toList

/-- The code units of a character. -/
def units (c : Char) : List ℕ :=
  if c.toNat < 0x10000 then [c.toNat]
  else [0xd800 + (c.toNat - 0x10000) / 0x400, 0xdc00 + (c.toNat - 0x10000) % 0x400]

def utf16 (s : Text) : List ℕ := s.flatMap units

theorem utf8Decode_eq_some_iff {bytes : List UInt8} {s : Text} : utf8Decode bytes = some s ↔
    utf8 s = bytes := by
  have hencode : s.utf8Encode = (utf8 s).toByteArray := rfl
  constructor
  · intro h
    obtain ⟨a, ha, rfl⟩ := Option.map_eq_some_iff.mp h
    have hsome : bytes.toByteArray.utf8Decode?.isSome := by rw [ha]; rfl
    have hget := ByteArray.utf8Encode_get_utf8Decode? (b := bytes.toByteArray) (h := hsome)
    simp only [ha, Option.get_some] at hget
    rw [hencode] at hget
    have hlist := congrArg (fun b => b.data.toList) hget
    simpa using hlist
  · rintro rfl
    rw [utf8Decode, ← hencode, List.utf8Decode?_utf8Encode]
    rfl

theorem utf8_injective {s t : Text} (h : utf8 s = utf8 t) : s = t := by
  have hs := utf8Decode_eq_some_iff.mpr h
  rw [utf8Decode_eq_some_iff.mpr rfl] at hs
  exact (Option.some.inj hs).symm

@[simp] theorem utf8_nil : utf8 [] = [] := rfl

theorem utf8_cons (c : Char) (s : Text) : utf8 (c :: s) = String.utf8EncodeChar c ++ utf8 s := rfl

theorem utf16_cons (c : Char) (s : Text) : utf16 (c :: s) = units c ++ utf16 s := rfl

theorem utf8_append (s t : Text) : utf8 (s ++ t) = utf8 s ++ utf8 t := List.flatMap_append

theorem utf16_append (s t : Text) : utf16 (s ++ t) = utf16 s ++ utf16 t := List.flatMap_append

theorem utf8_eq_nil {s : Text} (h : utf8 s = []) : s = [] := by
  cases s with
  | nil => rfl
  | cons c s => exact absurd (List.append_eq_nil_iff.mp h).1 String.utf8EncodeChar_ne_nil

theorem utf8EncodeChar_ascii {c : Char} (h : c.toNat < 128) :
    String.utf8EncodeChar c = [UInt8.ofNat c.toNat] := by
  have hle : c.val.toNat ≤ 0x7f := by
    show c.toNat ≤ 127
    omega
  rw [String.utf8EncodeChar]
  exact if_pos hle

theorem units_ascii {c : Char} (h : c.toNat < 128) : units c = [c.toNat] := if_pos (by omega)

/-- Every byte of a character that is not ASCII is 128 or more. -/
theorem le_of_mem_utf8EncodeChar {c : Char} (h : 128 ≤ c.toNat) {b : UInt8}
    (hb : b ∈ String.utf8EncodeChar c) :
    128 ≤ b.toNat := by
  have hmem : ∀ n, b = UInt8.ofNat n → 128 ≤ n → n < 256 → 128 ≤ b.toNat := by
    rintro n rfl hlo hhi
    rw [UInt8.toNat_ofNat']
    omega
  have hv : ¬ c.val.toNat ≤ 0x7f := by
    show ¬ c.toNat ≤ 127
    omega
  rw [String.utf8EncodeChar] at hb
  simp only [if_neg hv] at hb
  split_ifs at hb
  all_goals
    simp only [List.mem_cons, List.not_mem_nil, or_false] at hb
  · rcases hb with hb | hb <;> exact hmem _ hb (by omega) (by omega)
  · rcases hb with hb | hb | hb <;> exact hmem _ hb (by omega) (by omega)
  · rcases hb with hb | hb | hb | hb <;> exact hmem _ hb (by omega) (by omega)

/-- UTF-8 is longer than UTF-16 unless the character is ASCII. -/
theorem length_units_lt {c : Char} (h : 128 ≤ c.toNat) :
    (units c).length < (String.utf8EncodeChar c).length := by
  have hv : ¬ c.val.toNat ≤ 0x7f := by
    show ¬ c.toNat ≤ 127
    omega
  have hval : c.val.toNat = c.toNat := rfl
  rw [String.utf8EncodeChar, units]
  simp only [if_neg hv]
  split_ifs <;> simp only [List.length_cons, List.length_nil] <;> omega

theorem length_utf16_le (s : Text) : (utf16 s).length ≤ (utf8 s).length := by
  induction s with
  | nil => exact Nat.le_refl 0
  | cons c s ih =>
    have hc : (units c).length ≤ (String.utf8EncodeChar c).length := by
      rcases Nat.lt_or_ge c.toNat 128 with h | h
      · rw [units_ascii h, utf8EncodeChar_ascii h]
        exact Nat.le_refl 1
      · exact Nat.le_of_lt (length_units_lt h)
    rw [utf16_cons, utf8_cons, List.length_append, List.length_append]
    exact Nat.add_le_add hc ih

/-- The lengths are the same for ASCII texts only. -/
theorem ascii_of_length_le {s : Text} (h : (utf8 s).length ≤ (utf16 s).length) :
    ∀ c ∈ s, c.toNat < 128 := by
  intro c hc
  by_contra hge
  obtain ⟨a, b, rfl⟩ := List.append_of_mem hc
  have ha := length_utf16_le a
  have hb := length_utf16_le b
  have hlt := length_units_lt (Nat.le_of_not_lt hge)
  simp only [utf8_append, utf16_append, utf8_cons, utf16_cons, List.length_append] at h
  omega

theorem utf8_ascii {s : Text} (h : ∀ c ∈ s, c.toNat < 128) :
    utf8 s = s.map fun c => UInt8.ofNat c.toNat := by
  induction s with
  | nil => rfl
  | cons c s ih =>
    rw [utf8_cons, utf8EncodeChar_ascii (h c List.mem_cons_self), ih fun d hd =>
      h d (List.mem_cons_of_mem c hd)]
    rfl

theorem utf16_ascii {s : Text} (h : ∀ c ∈ s, c.toNat < 128) : utf16 s = s.map fun c => c.toNat := by
  induction s with
  | nil => rfl
  | cons c s ih =>
    rw [utf16_cons, units_ascii (h c List.mem_cons_self), ih fun d hd =>
      h d (List.mem_cons_of_mem c hd)]
    rfl

/-- Another character does not have the byte of an ASCII character. -/
theorem not_mem_utf8EncodeChar {c d : Char} (hd : d.toNat < 128) (h : c ≠ d) :
    UInt8.ofNat d.toNat ∉ String.utf8EncodeChar c := by
  intro hmem
  rcases Nat.lt_or_ge c.toNat 128 with hc | hc
  · rw [utf8EncodeChar_ascii hc, List.mem_singleton] at hmem
    have hnat := congrArg UInt8.toNat hmem
    rw [UInt8.toNat_ofNat', UInt8.toNat_ofNat', Nat.mod_eq_of_lt (by omega),
      Nat.mod_eq_of_lt (by omega)] at hnat
    exact h (Char.toNat_inj.mp hnat.symm)
  · have hge := le_of_mem_utf8EncodeChar hc hmem
    rw [UInt8.toNat_ofNat', Nat.mod_eq_of_lt (by omega)] at hge
    omega

/-- An ASCII byte of valid bytes is a character. -/
theorem exists_of_utf8_eq_append {s : Text} {d : Char} (hd : d.toNat < 128) {a b : List UInt8}
    (h : utf8 s = a ++ UInt8.ofNat d.toNat :: b) :
    ∃ s₁ s₂, s = s₁ ++ d :: s₂ ∧ utf8 s₁ = a ∧ utf8 s₂ = b := by
  induction s generalizing a with
  | nil => simp at h
  | cons c s ih =>
    rw [utf8_cons] at h
    by_cases hc : c = d
    · subst hc
      rw [utf8EncodeChar_ascii hd] at h
      rcases a with _ | ⟨x, a⟩
      · exact ⟨[], s, rfl, rfl, (List.cons.inj h).2⟩
      · obtain ⟨hx, htail⟩ := List.cons.inj h
        obtain ⟨s₁, s₂, rfl, rfl, rfl⟩ := ih htail
        refine ⟨c :: s₁, s₂, rfl, ?_, rfl⟩
        rw [utf8_cons, utf8EncodeChar_ascii hd, ← hx]
        rfl
    · -- all bytes of `c` stand before the byte of `d`
      rcases List.append_eq_append_iff.mp h with ⟨t, rfl, htail⟩ | ⟨t, hsplit, htail⟩
      · obtain ⟨s₁, s₂, rfl, rfl, rfl⟩ := ih htail
        exact ⟨c :: s₁, s₂, rfl, rfl, rfl⟩
      · rcases t with _ | ⟨x, t⟩
        · obtain ⟨s₁, s₂, rfl, hs₁, rfl⟩ := ih (a := []) htail.symm
          refine ⟨c :: s₁, s₂, rfl, ?_, rfl⟩
          rw [utf8_cons, hs₁, hsplit, List.append_nil, List.append_nil]
        · obtain ⟨hx, -⟩ := List.cons.inj htail
          refine absurd ?_ (not_mem_utf8EncodeChar hd hc)
          rw [hsplit, hx]
          simp

/-! ### Lines -/

/-- The lines of a text, after the beginning `acc` of the first one. -/
def linesFrom : Text → Text → List Text
  | acc, '\r' :: '\n' :: s => acc :: linesFrom [] s
  | acc, c :: s => if c = '\n' ∨ c = '\r' then acc :: linesFrom [] s else linesFrom (acc ++ [c]) s
  | acc, [] => if acc = [] then [] else [acc]

/-- The lines, as `readLine` returns them. -/
def lines (s : Text) : List Text := linesFrom [] s

/-- No character ends a line. -/
def OneLine (s : Text) : Prop := ∀ c ∈ s, c ≠ '\n' ∧ c ≠ '\r'

theorem linesFrom_end {acc s : Text} {c : Char} (hc : c = '\n' ∨ c = '\r')
    (hs : c = '\r' → s.head? ≠ some '\n') :
    linesFrom acc (c :: s) = acc :: linesFrom [] s := by
  rw [linesFrom, if_pos hc]
  rintro t rfl hs'
  exact hs rfl (by rw [hs']; rfl)

theorem linesFrom_char {acc s : Text} {c : Char} (hn : c ≠ '\n') (hr : c ≠ '\r') :
    linesFrom acc (c :: s) = linesFrom (acc ++ [c]) s := by
  rw [linesFrom, if_neg (by simp [hn, hr])]
  exact fun _ h => absurd h hr

theorem head?_append_ne {s t : Text} (hnil : s ≠ []) (hs : ∀ s', s ≠ '\n' :: s') :
    (s ++ t).head? ≠ some '\n' := by
  obtain ⟨d, s', rfl⟩ := List.exists_cons_of_ne_nil hnil
  intro hd
  obtain rfl : d = '\n' := by simpa using hd
  exact hs s' rfl

/-- A text ending with a newline, and another one. -/
theorem linesFrom_append (acc x y : Text) :
    linesFrom acc (x ++ '\n' :: y) = linesFrom acc (x ++ ['\n']) ++ linesFrom [] y := by
  fun_induction linesFrom acc x with
  | case1 acc s ih => simp only [List.cons_append, linesFrom, ih]
  | case2 acc c s hs hc ih =>
    by_cases hr : c = '\r' ∧ s = []
    · obtain ⟨rfl, rfl⟩ := hr
      rfl
    · have hnext : ∀ t, c = '\r' → (s ++ t).head? ≠ some '\n' := fun t hcr =>
        head?_append_ne (fun hnil => hr ⟨hcr, hnil⟩) fun s' => hs s' hcr
      rw [List.cons_append, List.cons_append, linesFrom_end hc (hnext _),
        linesFrom_end hc (hnext _), ih, List.cons_append]
  | case3 acc c s hs hc ih =>
    obtain ⟨hn, hr⟩ := not_or.mp hc
    rw [List.cons_append, List.cons_append, linesFrom_char hn hr, linesFrom_char hn hr, ih]
  | case4 => rfl
  | case5 => rfl

theorem lines_append (x y : Text) : lines (x ++ '\n' :: y) = lines (x ++ ['\n']) ++ lines y :=
  linesFrom_append [] x y

theorem linesFrom_oneLine {acc x : Text} (h : OneLine x) :
    linesFrom acc (x ++ ['\n']) = [acc ++ x] := by
  induction x generalizing acc with
  | nil => rw [List.append_nil]; rfl
  | cons c x ih =>
    obtain ⟨hn, hr⟩ := h c List.mem_cons_self
    rw [List.cons_append, linesFrom_char hn hr, ih fun d hd => h d (List.mem_cons_of_mem c hd),
      List.append_assoc, List.singleton_append]

/-- A line that is followed by others. -/
theorem lines_oneLine {x : Text} (h : OneLine x) (y : Text) :
    lines (x ++ '\n' :: y) = x :: lines y := by
  rw [lines_append, lines, linesFrom_oneLine h]
  rfl

theorem OneLine.concat {acc : Text} (h : OneLine acc) {c : Char} (hn : c ≠ '\n') (hr : c ≠ '\r') :
    OneLine (acc ++ [c]) := by
  intro d hd
  rcases List.mem_append.mp hd with hd | hd
  · exact h d hd
  · obtain rfl := List.mem_singleton.mp hd
    exact ⟨hn, hr⟩

/-- A newline ends at least one line: this is the text before it or, if there is no other, the text
may have another end of a line. -/
theorem linesFrom_newline (acc x : Text) (h : OneLine acc) :
    ∃ l ls, linesFrom acc (x ++ ['\n']) = l :: ls ∧
    OneLine l ∧ (ls = [] → l = acc ++ x ∨ l ++ ['\r'] = acc ++ x) := by
  fun_induction linesFrom acc x with
  | case1 acc s ih =>
    obtain ⟨l, ls, hl, -⟩ := ih fun _ hc => absurd hc List.not_mem_nil
    refine ⟨acc, l :: ls, ?_, h, fun hnil => by cases hnil⟩
    rw [List.cons_append, List.cons_append, linesFrom, hl]
  | case2 acc c s hs hc ih =>
    by_cases hr : c = '\r' ∧ s = []
    · obtain ⟨rfl, rfl⟩ := hr
      exact ⟨acc, [], rfl, h, fun _ => .inr rfl⟩
    · have hnext : c = '\r' → (s ++ ['\n']).head? ≠ some '\n' := fun hcr =>
        head?_append_ne (fun hnil => hr ⟨hcr, hnil⟩) fun s' => hs s' hcr
      obtain ⟨l, ls, hl, -⟩ := ih fun _ hc => absurd hc List.not_mem_nil
      refine ⟨acc, l :: ls, ?_, h, fun hnil => by cases hnil⟩
      rw [List.cons_append, linesFrom_end hc hnext, hl]
  | case3 acc c s hs hc ih =>
    obtain ⟨hn, hr⟩ := not_or.mp hc
    obtain ⟨l, ls, hl, hone, hlast⟩ := ih (h.concat hn hr)
    refine ⟨l, ls, ?_, hone, fun hnil => ?_⟩
    · rw [List.cons_append, linesFrom_char hn hr, hl]
    · have := hlast hnil
      rwa [List.append_assoc, List.singleton_append] at this
  | case4 => exact ⟨[], [], rfl, h, fun _ => .inl rfl⟩
  | case5 acc hacc => exact ⟨acc, [], rfl, h, fun _ => .inl (List.append_nil acc).symm⟩

theorem lines_newline (x : Text) : ∃ l ls, lines (x ++ ['\n']) = l :: ls ∧ OneLine l ∧
    (ls = [] → l = x ∨ l ++ ['\r'] = x) :=
  linesFrom_newline [] x fun _ hc => absurd hc List.not_mem_nil

end ServeD.Lib.Texts
