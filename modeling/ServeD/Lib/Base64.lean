import ServeD.Lib.Bytes

/-! # Base64

The encoding of bytes in groups of three, with padding, and a decoder that stops at the padding,
ignores characters outside the alphabet and reads the two alphabets that differ in their last two
characters. `decode_encode` says that decoding inverts encoding. -/

namespace ServeD.Lib.Base64

open ServeD.Lib.Bytes

def alphabet : List Char :=
  "ABCDEFGHIJKLMNOPQRSTUVWXYZabcdefghijklmnopqrstuvwxyz0123456789+/".toList

/-- The character of a number below 64. -/
def char (x : ℕ) : Char := alphabet.getD x '='

/-- The number of a character. -/
def sextet (c : Char) : Option ℕ :=
  if c = '-' then some 62
  else if c = '_' then some 63
  else alphabet.idxOf? c

/-- Three bytes are four numbers below 64; one or two bytes at the end are two or three. -/
def toSextets : List Byte → List ℕ
  | a :: b :: c :: bs =>
    a.toNat / 4 :: (a.toNat % 4 * 16 + b.toNat / 16) :: (b.toNat % 16 * 4 + c.toNat / 64) ::
      c.toNat % 64 ::
      toSextets bs
  | [a, b] => [a.toNat / 4, a.toNat % 4 * 16 + b.toNat / 16, b.toNat % 16 * 4]
  | [a] => [a.toNat / 4, a.toNat % 4 * 16]
  | [] => []

def ofSextets : List ℕ → List Byte
  | w :: x :: y :: z :: xs =>
    BitVec.ofNat 8 (w * 4 + x / 16) :: BitVec.ofNat 8 (x * 16 + y / 4) :: BitVec.ofNat 8
      (y * 64 + z) ::
      ofSextets xs
  | [w, x, y] => [BitVec.ofNat 8 (w * 4 + x / 16), BitVec.ofNat 8 (x * 16 + y / 4)]
  | [w, x] => [BitVec.ofNat 8 (w * 4 + x / 16)]
  | [_] => []
  | [] => []

/-- The characters that fill the last group. -/
def padding (n : ℕ) : List Char := List.replicate ((3 - n % 3) % 3) '='

def encode (bs : List Byte) : List Char := (toSextets bs).map char ++ padding bs.length

def decode (cs : List Char) : List Byte := ofSextets ((cs.takeWhile (· ≠ '=')).filterMap sextet)

/-! ### Characters -/

theorem sextet_char {x : ℕ} (h : x < 64) : sextet (char x) = some x := by
  have hall : ∀ x : Fin 64, sextet (char x) = some x.val := by decide +kernel
  exact hall ⟨x, h⟩

theorem char_mem {x : ℕ} (h : x < 64) : char x ∈ alphabet := by
  have hlt : x < alphabet.length := h
  rw [char, List.getD_eq_getElem?_getD, List.getElem?_eq_getElem hlt, Option.getD_some]
  exact List.getElem_mem hlt

theorem char_ne_padding {x : ℕ} (h : x < 64) : char x ≠ '=' := by
  have hpad : '=' ∉ alphabet := by decide
  exact fun he => hpad (he ▸ char_mem h)

/-! ### Groups -/

theorem toSextets_lt (bs : List Byte) : ∀ x ∈ toSextets bs, x < 64 := by
  fun_induction toSextets bs with
  | case1 a b c bs ih =>
    have ha := a.isLt
    have hb := b.isLt
    have hc := c.isLt
    simp only [List.mem_cons, forall_eq_or_imp]
    refine ⟨by omega, by omega, by omega, by omega, ih⟩
  | case2 a b =>
    have ha := a.isLt
    have hb := b.isLt
    simp only [List.mem_cons, forall_eq_or_imp, List.not_mem_nil]
    refine ⟨by omega, by omega, by omega, by simp⟩
  | case3 a =>
    have ha := a.isLt
    simp only [List.mem_cons, forall_eq_or_imp, List.not_mem_nil]
    refine ⟨by omega, by omega, by simp⟩
  | case4 => simp

/-- A byte from the number it stands for. -/
theorem ofNat_eq {n : ℕ} {a : Byte} (h : n % 256 = a.toNat) : BitVec.ofNat 8 n = a := by
  apply BitVec.eq_of_toNat_eq
  rw [BitVec.toNat_ofNat]
  exact h

theorem ofSextets_toSextets (bs : List Byte) : ofSextets (toSextets bs) = bs := by
  fun_induction toSextets bs with
  | case1 a b c bs ih =>
    have ha := a.isLt
    have hb := b.isLt
    have hc := c.isLt
    rw [ofSextets, ih, ofNat_eq (a := a) (by omega), ofNat_eq (a := b) (by omega),
      ofNat_eq (a := c) (by omega)]
  | case2 a b =>
    have ha := a.isLt
    have hb := b.isLt
    rw [ofSextets, ofNat_eq (a := a) (by omega), ofNat_eq (a := b) (by omega)]
  | case3 a =>
    have ha := a.isLt
    rw [ofSextets, ofNat_eq (a := a) (by omega)]
  | case4 => rfl

/-! ### Texts -/

/-- **Decoding inverts encoding**. -/
theorem decode_encode (bs : List Byte) : decode (encode bs) = bs := by
  have hchars : ∀ c ∈ (toSextets bs).map char, c ≠ '=' := by
    intro c hc
    obtain ⟨x, hx, rfl⟩ := List.mem_map.mp hc
    exact char_ne_padding (toSextets_lt bs x hx)
  have htake : (encode bs).takeWhile (· ≠ '=') = (toSextets bs).map char := by
    rw [encode, List.takeWhile_append_of_pos (by simpa using hchars)]
    have hpad : (padding bs.length).takeWhile (· ≠ '=') = [] := by
      rw [padding]
      cases (3 - bs.length % 3) % 3 <;> rfl
    rw [hpad, List.append_nil]
  have hread : ((toSextets bs).map char).filterMap sextet = toSextets bs := by
    rw [List.filterMap_map]
    calc (toSextets bs).filterMap (sextet ∘ char) = (toSextets bs).filterMap some :=
          List.filterMap_congr fun x hx => sextet_char (toSextets_lt bs x hx)
      _ = toSextets bs := List.filterMap_some
  rw [decode, htake, hread, ofSextets_toSextets]

/-- The characters of the alphabet and the padding. -/
theorem mem_encode {bs : List Byte} {c : Char} (h : c ∈ encode bs) : c ∈ alphabet ∨ c = '=' := by
  rcases List.mem_append.mp h with h | h
  · obtain ⟨x, hx, rfl⟩ := List.mem_map.mp h
    exact .inl (char_mem (toSextets_lt bs x hx))
  · exact .inr (List.eq_of_mem_replicate h)

theorem encode_ne_nil {bs : List Byte} (h : bs ≠ []) : encode bs ≠ [] := by
  intro he
  apply h
  rw [← decode_encode bs, he]
  rfl

end ServeD.Lib.Base64
