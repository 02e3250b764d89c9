import Mathlib.Data.BitVec
import Mathlib.Data.Nat.Size
import Mathlib.Tactic.Ring

/-! # Numbers as bytes

Bytes with the most significant one first: a number of a given length (`bigEndian`), the number that
bytes stand for, without a sign (`unsigned`) and in two's complement (`signed`), and the shortest
two's complement form of a natural number (`twosComplement`). -/

namespace ServeD.Lib.Bytes

abbrev Byte := BitVec 8

/-- The last `k` bytes of a number. -/
def bigEndian : ℕ → ℕ → List Byte
  | 0, _ => []
  | k + 1, n => BitVec.ofNat 8 (n / 256 ^ k) :: bigEndian k n

/-- The number that bytes stand for. -/
def unsigned : List Byte → ℕ
  | [] => 0
  | b :: bs => b.toNat * 256 ^ bs.length + unsigned bs

/-- The integer that bytes stand for in two's complement. -/
def signed : List Byte → ℤ
  | [] => 0
  | b :: bs => if b.msb then (unsigned (b :: bs) : ℤ) - 256 ^ (b :: bs).length
    else unsigned (b :: bs)

/-- The number of bytes of a natural number in two's complement: its first bit is clear. -/
def signedLength (n : ℕ) : ℕ := n.size / 8 + 1

/-- The shortest bytes that stand for a natural number in two's complement. -/
def twosComplement (n : ℕ) : List Byte := bigEndian (signedLength n) n

/-! ### Big-endian bytes -/

@[simp] theorem length_bigEndian (k n : ℕ) : (bigEndian k n).length = k := by
  induction k with
  | zero => rfl
  | succ k ih => rw [bigEndian, List.length_cons, ih]

theorem unsigned_bigEndian (k n : ℕ) : unsigned (bigEndian k n) = n % 256 ^ k := by
  induction k with
  | zero => rw [pow_zero, Nat.mod_one]; rfl
  | succ k ih =>
    have hsplit : n % 256 ^ (k + 1) = n % 256 ^ k + 256 ^ k * (n / 256 ^ k % 256) := by
      rw [pow_succ, Nat.mod_mul]
    rw [bigEndian, unsigned, ih, length_bigEndian, BitVec.toNat_ofNat, hsplit]
    ring

/-- The first bytes of a number are those of a quotient. -/
theorem take_bigEndian (n : ℕ) {j k : ℕ} (h : j ≤ k) :
    (bigEndian k n).take j = bigEndian j (n / 256 ^ (k - j)) := by
  induction k generalizing j with
  | zero =>
    obtain rfl : j = 0 := by omega
    rfl
  | succ k ih =>
    cases j with
    | zero => rfl
    | succ j =>
      have hjk : j ≤ k := by omega
      have hexp : k + 1 - (j + 1) = k - j := by omega
      have hpow : 256 ^ (k - j) * 256 ^ j = 256 ^ k := by
        rw [← pow_add]
        congr 1
        omega
      rw [bigEndian, List.take_succ_cons, ih hjk, bigEndian, hexp, Nat.div_div_eq_div_mul, hpow]

/-! ### Two's complement -/

theorem signed_of_nonneg {b : Byte} {bs : List Byte} (h : b.msb = false) :
    signed (b :: bs) = unsigned (b :: bs) := by
  rw [signed, h]
  rfl

theorem lt_pow_signedLength (n : ℕ) : 2 * n < 256 ^ signedLength n := by
  have hsize : n < 2 ^ n.size := Nat.lt_size_self n
  have hpow : (256 : ℕ) ^ signedLength n = 2 ^ (8 * signedLength n) := by
    rw [pow_mul]
    norm_num
  have hle : 2 ^ (n.size + 1) ≤ 2 ^ (8 * signedLength n) := by
    refine Nat.pow_le_pow_right (by decide) ?_
    unfold signedLength
    omega
  rw [pow_succ] at hle
  omega

/-- A nonempty beginning of the shortest form stands for a quotient. -/
theorem signed_take_twosComplement (n : ℕ) {j : ℕ} (hj : j ≤ signedLength n) :
    signed ((twosComplement n).take j) = (n / 256 ^ (signedLength n - j) : ℕ) := by
  set L := signedLength n with hL
  have hlt : 2 * n < 256 ^ L := lt_pow_signedLength n
  rw [twosComplement, take_bigEndian n hj]
  cases j with
  | zero =>
    have hzero : n / 256 ^ (L - 0) = 0 := Nat.div_eq_of_lt (by rw [Nat.sub_zero]; omega)
    rw [hzero]
    rfl
  | succ j =>
    -- the first byte is the first one of `n`, which is below 128
    set m := n / 256 ^ (L - (j + 1)) with hm
    have hpow : 256 ^ L = 256 ^ (L - (j + 1)) * 256 ^ (j + 1) := by
      rw [← pow_add]
      congr 1
      omega
    have hmlt : 2 * m < 256 ^ (j + 1) := by
      have hmul : m * 256 ^ (L - (j + 1)) ≤ n := Nat.div_mul_le_self n _
      by_contra hge
      have hprod : 256 ^ (L - (j + 1)) * 256 ^ (j + 1) ≤ 256 ^ (L - (j + 1)) * (2 * m) :=
        Nat.mul_le_mul_left _ (by omega)
      have hcomm : 256 ^ (L - (j + 1)) * (2 * m) = 2 * (m * 256 ^ (L - (j + 1))) := by ring
      omega
    have hhead : m / 256 ^ j < 128 := by
      rw [Nat.div_lt_iff_lt_mul (Nat.pow_pos (by decide))]
      have hsucc : (256 : ℕ) ^ (j + 1) = 256 ^ j * 256 := pow_succ 256 j
      omega
    have hmsb : (BitVec.ofNat 8 (m / 256 ^ j)).msb = false := by
      rw [BitVec.msb_eq_false_iff_two_mul_lt, BitVec.toNat_ofNat,
        Nat.mod_eq_of_lt (hhead.trans (by decide))]
      exact Nat.mul_lt_mul_of_pos_left hhead (by decide)
    have hval := unsigned_bigEndian (j + 1) m
    rw [Nat.mod_eq_of_lt (by omega)] at hval
    rw [bigEndian, signed_of_nonneg hmsb]
    exact_mod_cast hval

/-- **The shortest form stands for the number**. -/
theorem signed_twosComplement (n : ℕ) : signed (twosComplement n) = n := by
  have h := signed_take_twosComplement n (le_refl (signedLength n))
  rw [Nat.sub_self, pow_zero, Nat.div_one, List.take_of_length_le] at h
  · exact h
  · rw [twosComplement, length_bigEndian]

/-- A proper beginning stands for a smaller number. -/
theorem signed_take_twosComplement_lt {n j : ℕ} (hn : 0 < n) (hj : j < signedLength n) :
    signed ((twosComplement n).take j) < n := by
  have hpow : 1 < 256 ^ (signedLength n - j) := Nat.one_lt_pow (by omega) (by decide)
  rw [signed_take_twosComplement n hj.le]
  exact_mod_cast Nat.div_lt_self hn hpow

end ServeD.Lib.Bytes
