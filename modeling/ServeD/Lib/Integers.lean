import Mathlib.Data.List.Basic
import Mathlib.Algebra.Order.Ring.Int

/-! # Integers as text

`Integer.parseInt` and `Integer.toString` of Java, for integers of 32 bits. A digit is what
`Character.digit` takes for one: a character of one of the blocks of ten decimal digits.

* `parseInt_toString`: an integer is read back from its text. -/

namespace ServeD.Lib.Integers

/-- The zeros of the blocks of decimal digits (the characters of category `Nd` that are
one `char`). -/
def zeros : List ℕ :=
  [0x0030, 0x0660, 0x06F0, 0x07C0, 0x0966, 0x09E6, 0x0A66, 0x0AE6, 0x0B66, 0x0BE6, 0x0C66,
    0x0CE6, 0x0D66, 0x0E50, 0x0ED0, 0x0F20, 0x1040, 0x1090, 0x17E0, 0x1810, 0x1946, 0x19D0, 0x1A80,
    0x1A90, 0x1B50, 0x1BB0, 0x1C40, 0x1C50, 0xA620, 0xA8D0, 0xA900, 0xA9D0, 0xAA50, 0xABF0, 0xFF10]

/-- `Character.digit(c, 10)`. -/
def digit (c : Char) : Option ℕ :=
  zeros.findSome? fun z => if z ≤ c.toNat ∧ c.toNat < z + 10 then some (c.toNat - z) else none

/-- The number that a list of digits stands for, after the digits before it. -/
def digitsFrom : ℕ → List Char → Option ℕ
  | n, [] => some n
  | n, c :: cs => (digit c).bind fun d => digitsFrom (10 * n + d) cs

/-- The number that a list of digits stands for; there has to be one. -/
def digits : List Char → Option ℕ
  | [] => none
  | c :: cs => digitsFrom 0 (c :: cs)

/-- `Integer.parseInt`, `none` for a `NumberFormatException`. -/
def parseInt (s : String) : Option ℤ :=
  match s.toList with
  | '-' :: cs => (digits cs).bind fun n => if n ≤ 2 ^ 31 then some (-n) else none
  | '+' :: cs => (digits cs).bind fun n => if n < 2 ^ 31 then some (n : ℤ) else none
  | cs => (digits cs).bind fun n => if n < 2 ^ 31 then some (n : ℤ) else none

/-! ### Numerals -/

theorem isDigit_of_mem_toDigits {n : ℕ} {c : Char} (h : c ∈ Nat.toDigits 10 n) : c.isDigit = true :=
  Nat.isDigit_of_mem_toDigits (by omega) (by omega) h

theorem toList_toString_natCast (n : ℕ) : (toString (n : ℤ)).toList = Nat.toDigits 10 n :=
  Nat.toList_repr

theorem toList_toString_negSucc (n : ℕ) :
    (toString (Int.negSucc n)).toList = '-' :: Nat.toDigits 10 (n + 1) := by
  show ("-" ++ (n + 1).repr).toList = _
  rw [String.toList_append, Nat.toList_repr]
  rfl

theorem mem_toString {i : ℤ} {c : Char} (h : c ∈ (toString i).toList) :
    c = '-' ∨ c.isDigit = true := by
  rcases i with n | n
  · rw [Int.ofNat_eq_natCast, toList_toString_natCast] at h
    exact .inr (isDigit_of_mem_toDigits h)
  · rw [toList_toString_negSucc] at h
    rcases List.mem_cons.mp h with h | h
    · exact .inl h
    · exact .inr (isDigit_of_mem_toDigits h)

theorem toList_toString_ne_nil (i : ℤ) : (toString i).toList ≠ [] := by
  rcases i with n | n
  · rw [Int.ofNat_eq_natCast, toList_toString_natCast]
    exact Nat.toDigits_ne_nil
  · rw [toList_toString_negSucc]
    exact List.cons_ne_nil _ _

/-! ### Reading back -/

theorem digit_of_isDigit {c : Char} (h : c.isDigit = true) : digit c = some (c.toNat - 48) := by
  rw [Char.isDigit_iff_toNat] at h
  have h0 : '0'.toNat = 48 := rfl
  have h9 : '9'.toNat = 57 := rfl
  unfold digit zeros
  rw [List.findSome?_cons, if_pos (by omega)]

theorem digitsFrom_eq : ∀ {cs : List Char} (n : ℕ), (∀ c ∈ cs, c.isDigit = true) →
    digitsFrom n cs = some (Nat.ofDigitChars 10 cs n)
  | [], n, _ => by simp [digitsFrom]
  | c :: cs, n, h => by
    rw [digitsFrom, digit_of_isDigit (h c List.mem_cons_self), Option.bind_some,
      digitsFrom_eq _ fun c' hc' => h c' (List.mem_cons_of_mem c hc'), Nat.ofDigitChars_cons]
    rfl

/-- A number is read back from its digits. -/
theorem digits_toDigits (n : ℕ) : digits (Nat.toDigits 10 n) = some n := by
  have hd : ∀ c ∈ Nat.toDigits 10 n, c.isDigit = true := fun _ => isDigit_of_mem_toDigits
  rcases hl : Nat.toDigits 10 n with _ | ⟨c, cs⟩
  · exact absurd hl Nat.toDigits_ne_nil
  · rw [digits, ← hl, digitsFrom_eq 0 hd, Nat.ofDigitChars_ten_toDigits]

theorem parseInt_repr {n : ℕ} (h : n < 2 ^ 31) : parseInt n.repr = some (n : ℤ) := by
  have hd := digits_toDigits n
  have hdig : ∀ c ∈ Nat.toDigits 10 n, c.isDigit = true := fun _ => isDigit_of_mem_toDigits
  unfold parseInt
  rw [Nat.toList_repr]
  split
  · next cs hl =>
    have := hdig '-' (by rw [hl]; exact List.mem_cons_self)
    cases this
  · next cs hl =>
    have := hdig '+' (by rw [hl]; exact List.mem_cons_self)
    cases this
  · rw [hd, Option.bind_some, if_pos h]

/-- **`parseInt(i.toString)` is `i`.** -/
theorem parseInt_toString {i : ℤ} (hlo : -2 ^ 31 ≤ i) (hhi : i < 2 ^ 31) :
    parseInt (toString i) = some i := by
  rcases i with n | n
  · rw [Int.ofNat_eq_natCast] at hhi
    exact parseInt_repr (by omega)
  · unfold parseInt
    rw [toList_toString_negSucc]
    simp only
    rw [digits_toDigits, Option.bind_some, if_pos (by omega)]
    rfl

end ServeD.Lib.Integers
