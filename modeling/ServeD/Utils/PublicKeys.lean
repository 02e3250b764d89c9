import ServeD.Lib.Base64
import ServeD.Lib.Exceptions

/-! # Reading public keys

`PublicKeyReaderUtil`: the second token of an OpenSSH line, or the body of a SECSH text, is the
Base64 of a blob of arrays, each with its length in four bytes before it. The first one names the
type of the key, the others are its integers.

`readUInt32` adds up signed bytes, so a length is read as a smaller one if one of its last three
bytes is 128 or more (`toInt_uint32`), and a modulus of 128 to 255 bytes has a negative length. An
RSA key is loaded with its own integers exactly when this does not happen (`load_rsa_iff`). The type
of DSA keys is compared with `ssh-dsa` where the format has `ssh-dss`, so that no such key is loaded
(`load_dss`). The position is moved before the data is looked at, and is one past the data if this
ends inside a length (`position_le_iff`). -/

namespace ServeD.Utils.PublicKeys

open ServeD.Lib ServeD.Lib.Bytes ServeD.Lib.Exceptions

/-- `PublicKeyParseException.ErrorCode`, and what Java raises by itself. -/
inductive Failure where
  | UNKNOWN_PUBLIC_KEY_FILE_FORMAT
  | UNKNOWN_PUBLIC_KEY_CERTIFICATE_FORMAT
  | CORRUPT_OPENSSH_PUBLIC_KEY_STRING
  | CORRUPT_SECSSH_PUBLIC_KEY_STRING
  | CORRUPT_BYTE_ARRAY_ON_READ
  | NoSuchElementException
  | StringIndexOutOfBoundsException
  | ArrayIndexOutOfBoundsException
  deriving DecidableEq, Repr

/-- What `KeyFactory.generatePublic` makes of the integers of a specification. -/
inductive PublicKey where
  | rsa (modulus publicExponent : ℤ)
  | dsa (y p q g : ℤ)
  deriving DecidableEq, Repr

/-! ### Texts -/

/-- `StringTokenizer`'s delimiters. -/
def isDelimiter (c : Char) : Bool := c = ' ' ∨ c = '\t' ∨ c = '\n' ∨ c = '\r' ∨ c = '\x0c'

/-- `st.nextToken()`, with the text that is left. -/
def nextToken (text : List Char) : Except Failure (List Char × List Char) :=
  match text.dropWhile isDelimiter with
  | [] => .error .NoSuchElementException
  | token => .ok (token.span fun c => !isDelimiter c)

def extractOpenSSHBase64 (key : List Char) : Except Failure (List Char) :=
  tryCatch (do
    let (_, st) ← nextToken key
    let (base64, _) ← nextToken st
    return base64) fun
    | .NoSuchElementException => throw .CORRUPT_OPENSSH_PUBLIC_KEY_STRING
    | e => throw e

/-- `String.trim`. -/
def trim (line : List Char) : List Char :=
  ((line.dropWhile fun c => c ≤ ' ').reverse.dropWhile fun c => c ≤ ' ').reverse

def BEGIN_PUB_KEY : List Char := "---- BEGIN SSH2 PUBLIC KEY ----".toList

def END_PUB_KEY : List Char := "---- END SSH2 PUBLIC KEY ----".toList

/-- The variables of `extractSecSHBase64`'s loop. -/
structure SecSH where
  base64Data : List Char
  startKey : Bool
  startKeyBody : Bool
  nextLineIsHeader : Bool

/-- The loop over the lines: `none` if it ends without an end marker. -/
def readSecSH : List (List Char) → SecSH → Except Failure (Option (List Char))
  | [], _ => .ok none
  | line :: lines, s =>
    let trimLine := trim line
    if !s.startKey && trimLine == BEGIN_PUB_KEY then readSecSH lines { s with startKey := true }
    else if s.startKey then
      if trimLine == END_PUB_KEY then .ok (some s.base64Data)
      else if s.nextLineIsHeader then
        readSecSH lines { s with nextLineIsHeader := trimLine.getLast? == some '\\' }
      else if 0 < trimLine.idxOf ':' ∧ ':' ∈ trimLine then
        if s.startKeyBody then .error .CORRUPT_SECSSH_PUBLIC_KEY_STRING
        else readSecSH lines { s with nextLineIsHeader := trimLine.getLast? == some '\\' }
      else readSecSH lines { s with startKeyBody := true, base64Data := s.base64Data ++ trimLine }
    else readSecSH lines s

def extractSecSHBase64 (key : List Char) : Except Failure (List Char) := do
  match ← readSecSH (key.splitOn '\n') ⟨[], false, false, false⟩ with
  | some base64Data => return base64Data
  | none => throw .CORRUPT_SECSSH_PUBLIC_KEY_STRING

/-! ### The buffer -/

structure SSH2DataBuffer where
  data : List Byte
  pos : ℕ

/-- Reads from the buffer, which an exception leaves as it is. -/
abbrev Read := EStateM Failure SSH2DataBuffer

/-- `this.data[this.pos++]`: the position is moved before the array is looked at. -/
def nextByte : Read Byte := do
  let buf ← get
  set { buf with pos := buf.pos + 1 }
  match buf.data[buf.pos]? with
  | some b => return b
  | none => throw .ArrayIndexOutOfBoundsException

/-- The sum of `readUInt32`: the bytes are signed. -/
def sumBytes (byte1 byte2 byte3 byte4 : Byte) : BitVec 32 :=
  (byte1.signExtend 32 <<< 24) + (byte2.signExtend 32 <<< 16) + (byte3.signExtend 32 <<< 8) +
    (byte4.signExtend 32 <<< 0)

def readUInt32 : Read (BitVec 32) := do
  let byte1 ← nextByte
  let byte2 ← nextByte
  let byte3 ← nextByte
  let byte4 ← nextByte
  return sumBytes byte1 byte2 byte3 byte4

def readByteArray : Read (List Byte) := do
  let len ← readUInt32
  let buf ← get
  if len.toInt < 0 ∨ len.toInt > buf.data.length - buf.pos then throw .CORRUPT_BYTE_ARRAY_ON_READ
  else
    set { buf with pos := buf.pos + len.toNat }
    return (buf.data.drop buf.pos).take len.toNat

def readMPint : Read ℤ := do
  let raw ← readByteArray
  return if raw.length > 0 then signed raw else 0

/-- `new String(bytes)`. The types of keys have these bytes in every charset. -/
def newString (raw : List Byte) : String := String.ofList (raw.map fun b => Char.ofNat b.toNat)

def readString : Read String := do
  let raw ← readByteArray
  return newString raw

/-! ### Keys -/

def SSH2_DSA_KEY : String := "ssh-dsa"

def SSH2_RSA_KEY : String := "ssh-rsa"

def decodeDSAPublicKey : Read PublicKey := do
  let p ← readMPint
  let q ← readMPint
  let g ← readMPint
  let y ← readMPint
  return .dsa y p q g

def decodePublicKey : Read PublicKey := do
  let e ← readMPint
  let n ← readMPint
  return .rsa n e

/-- What `load` does with the buffer. -/
def decode : Read PublicKey := do
  let type ← readString
  if SSH2_DSA_KEY = type then decodeDSAPublicKey
  else if SSH2_RSA_KEY = type then decodePublicKey
  else throw .UNKNOWN_PUBLIC_KEY_CERTIFICATE_FORMAT

/-- The Base64 data of a key's text. -/
def extractBase64 (key : List Char) : Except Failure (List Char) :=
  match key with
  | [] => .error .StringIndexOutOfBoundsException
  | c :: _ =>
    if c = 's' then extractOpenSSHBase64 key
    else if c = '-' then extractSecSHBase64 key
    else .error .UNKNOWN_PUBLIC_KEY_FILE_FORMAT

/-- A new buffer is decoded. -/
def decodeBlob (blob : List Byte) : Except Failure PublicKey :=
  match decode ⟨blob, 0⟩ with
  | .ok ret _ => .ok ret
  | .error e _ => .error e

/-- `PublicKeyReaderUtil.load`. -/
def readerLoad (key : List Char) : Except Failure PublicKey := do
  let base64 ← extractBase64 key
  decodeBlob (Base64.decode base64)

/-- `KeyUtils.load`. -/
def load (key : String) : Option PublicKey := (readerLoad key.toList).toOption

/-! ### The format -/

/-- Bytes with their length before them. -/
def withLength (raw : List Byte) : List Byte := bigEndian 4 raw.length ++ raw

/-- A multiple precision integer. -/
def mpint (n : ℕ) : List Byte := withLength (twosComplement n)

/-- The bytes of an ASCII text. -/
def ascii (s : String) : List Byte := s.toList.map fun c => BitVec.ofNat 8 c.toNat

def rsaBlob (e n : ℕ) : List Byte := withLength (ascii "ssh-rsa") ++ (mpint e ++ mpint n)

def dssBlob (p q g y : ℕ) : List Byte :=
  withLength (ascii "ssh-dss") ++ (mpint p ++ (mpint q ++ (mpint g ++ mpint y)))

/-- A line of OpenSSH: the type of the key, the Base64 of the blob, and a comment. -/
def IsOpenSSHLine (type : String) (blob : List Byte) (line : String) : Prop :=
  ∃ blank comment : List Char, blank ≠ [] ∧ (∀ c ∈ blank, isDelimiter c) ∧
    (∀ c, comment.head? = some c → isDelimiter c) ∧
    line.toList = type.toList ++ blank ++ Base64.encode blob ++ comment

/-- Every byte of a length but the first is below 128. -/
def Readable (len : ℕ) : Prop := len % 256 < 128 ∧ len / 256 % 256 < 128 ∧ len / 65536 % 256 < 128

instance (len : ℕ) : Decidable (Readable len) := inferInstanceAs (Decidable (_ ∧ _))

/-- The array at the beginning of the data, as its length is read, and the rest. -/
def array : List Byte → Option (List Byte × List Byte)
  | byte1 :: byte2 :: byte3 :: byte4 :: rest =>
    let len := sumBytes byte1 byte2 byte3 byte4
    if len.toInt < 0 ∨ len.toInt > rest.length then none else some (rest.take len.toNat,
      rest.drop len.toNat)
  | _ => none

/-- The data ends inside the length of one of the next `k` arrays. -/
def EndsInLength : ℕ → List Byte → Prop
  | 0, _ => False
  | k + 1, data => data.length < 4 ∨ ∃ raw rest, array data = some (raw, rest) ∧ EndsInLength k rest

/-- How many integers a key of a type has. -/
def integers (type : String) : ℕ := if SSH2_DSA_KEY = type then 4 else if SSH2_RSA_KEY =
    type then 2 else 0

/-- The blob ends inside a length that is reached. -/
def CutOff (blob : List Byte) : Prop :=
  blob.length < 4 ∨ ∃ raw rest, array blob = some (raw, rest) ∧
    EndsInLength (integers (newString raw)) rest

/-- The position after a read. -/
def position {α : Type} : EStateM.Result Failure SSH2DataBuffer α → ℕ
  | .ok _ buf => buf.pos
  | .error _ buf => buf.pos

/-! ### Lengths -/

/-- How much less than a length is read. -/
def shortfall (len : ℕ) : ℕ :=
  (if len % 256 < 128 then 0 else 2 ^ 8) + (if len / 256 % 256 < 128 then 0 else 2 ^ 16) +
    (if len / 65536 % 256 < 128 then 0 else 2 ^ 24)

theorem shortfall_eq_zero_iff {len : ℕ} : shortfall len = 0 ↔ Readable len := by
  unfold shortfall Readable
  split_ifs <;> simp_all

theorem toInt_shiftLeft_signExtend (b : Byte) (k : ℕ) :
    b.signExtend 32 <<< k = BitVec.ofInt 32 (b.toInt * 2 ^ k) := by
  have hpow : BitVec.twoPow 32 k = BitVec.ofInt 32 (2 ^ k) := by
    apply BitVec.eq_of_toNat_eq
    rw [BitVec.toNat_twoPow, BitVec.toNat_ofInt]
    norm_cast
  rw [BitVec.shiftLeft_eq_mul_twoPow, hpow, BitVec.ofInt_mul]
  rfl

/-- The sum of signed bytes. -/
theorem toInt_sumBytes (a b c d : Byte) :
    (sumBytes a b c d).toInt =
      (a.toInt * 2 ^ 24 + b.toInt * 2 ^ 16 + c.toInt * 2 ^ 8 + d.toInt * 2 ^ 0).bmod (2 ^ 32) := by
  rw [sumBytes, toInt_shiftLeft_signExtend, toInt_shiftLeft_signExtend, toInt_shiftLeft_signExtend,
    toInt_shiftLeft_signExtend, ← BitVec.ofInt_add, ← BitVec.ofInt_add, ← BitVec.ofInt_add,
    BitVec.toInt_ofInt]

theorem toInt_ofNat_byte (n : ℕ) :
    (BitVec.ofNat 8 n).toInt = (n % 256 : ℕ) - (if n % 256 < 128 then 0 else 256 : ℤ) := by
  rw [BitVec.toInt_eq_toNat_cond, BitVec.toNat_ofNat]
  split_ifs <;> omega

/-- **What is read of a length**. -/
theorem toInt_uint32 {len : ℕ} (h : len < 2 ^ 31) :
    (sumBytes (BitVec.ofNat 8 (len / 256 ^ 3)) (BitVec.ofNat 8 (len / 256 ^ 2))
      (BitVec.ofNat 8 (len / 256 ^ 1)) (BitVec.ofNat 8 (len / 256 ^ 0))).toInt =
      len - shortfall len := by
  have hfirst : len / 256 ^ 3 % 256 < 128 := by omega
  have h0 : len / 256 ^ 0 = len := Nat.div_one len
  have hdigits : len = len / 256 ^ 3 % 256 * 2 ^ 24 + len / 65536 % 256 * 2 ^ 16 + len /
    256 % 256 * 2 ^ 8 +
      len % 256 := by omega
  rw [toInt_sumBytes, toInt_ofNat_byte, toInt_ofNat_byte, toInt_ofNat_byte, toInt_ofNat_byte,
    if_pos hfirst, h0]
  -- the rest is about the four digits
  unfold shortfall
  generalize len / 256 ^ 3 % 256 = d₃ at *
  rw [show len / 256 ^ 2 = len / 65536 from rfl, show len / 256 ^ 1 = len / 256 from rfl]
  generalize len / 65536 % 256 = d₂ at *
  generalize len / 256 % 256 = d₁ at *
  generalize len % 256 = d₀ at *
  rw [Int.bmod_eq_of_le]
  · split_ifs <;> omega
  · split_ifs <;> omega
  · split_ifs <;> omega

/-! ### Arrays -/

/-- The position is moved in any case. -/
theorem nextByte_eq (buf : SSH2DataBuffer) :
    nextByte buf = match buf.data[buf.pos]? with
      | some b => .ok b { buf with pos := buf.pos + 1 }
      | none => .error .ArrayIndexOutOfBoundsException { buf with pos := buf.pos + 1 } := by
  have hget : (get : Read SSH2DataBuffer) buf = .ok buf buf := rfl
  rw [nextByte, bind_ok hget]
  rcases h : buf.data[buf.pos]? with _ | b <;> rfl

theorem nextByte_some {buf : SSH2DataBuffer} {b : Byte} (h : buf.data[buf.pos]? = some b) :
    nextByte buf = .ok b { buf with pos := buf.pos + 1 } := by rw [nextByte_eq, h]

theorem nextByte_none {buf : SSH2DataBuffer} (h : buf.data[buf.pos]? = none) :
    nextByte buf = .error .ArrayIndexOutOfBoundsException { buf with pos := buf.pos + 1 } := by
  rw [nextByte_eq, h]

theorem readUInt32_cons {buf : SSH2DataBuffer} {a b c d : Byte} {rest : List Byte}
    (h : buf.data.drop buf.pos = a :: b :: c :: d :: rest) :
    readUInt32 buf = .ok (sumBytes a b c d) { buf with pos := buf.pos + 4 } := by
  have hget : ∀ i, buf.data[buf.pos + i]? = (a :: b :: c :: d :: rest)[i]? := by
    intro i
    rw [← h, List.getElem?_drop]
  rw [readUInt32, bind_ok (nextByte_some (hget 0)), bind_ok (nextByte_some (hget 1)),
    bind_ok (nextByte_some (hget 2)), bind_ok (nextByte_some (hget 3))]
  rfl

/-- The four bytes are not all there. -/
theorem readUInt32_short {buf : SSH2DataBuffer} (hpos : buf.pos ≤ buf.data.length)
    (h : (buf.data.drop buf.pos).length < 4) :
    readUInt32 buf = .error .ArrayIndexOutOfBoundsException
      { buf with pos := buf.data.length + 1 } := by
  obtain ⟨data, pos⟩ := buf
  have hget : ∀ i, data[pos + i]? = (data.drop pos)[i]? := fun i => List.getElem?_drop.symm
  have hend : data.length = pos + (data.drop pos).length := by
    rw [List.length_drop]
    simp only at hpos
    omega
  rw [readUInt32]
  dsimp only at h
  rcases hd : data.drop pos with _ | ⟨a, _ | ⟨b, _ | ⟨c, _ | ⟨d, rest⟩⟩⟩⟩
  all_goals rw [hd] at h hend hget
  · rw [bind_error (nextByte_none (hget 0)), hend]
    rfl
  · rw [bind_ok (nextByte_some (hget 0)), bind_error (nextByte_none (hget 1)), hend]
    rfl
  · rw [bind_ok (nextByte_some (hget 0)), bind_ok (nextByte_some (hget 1)),
      bind_error (nextByte_none (hget 2)), hend]
    rfl
  · rw [bind_ok (nextByte_some (hget 0)), bind_ok (nextByte_some (hget 1)),
      bind_ok (nextByte_some (hget 2)), bind_error (nextByte_none (hget 3)), hend]
    rfl
  · simp at h
    omega

/-- What is done with a length. -/
theorem readByteArray_cons {buf : SSH2DataBuffer} {a b c d : Byte} {rest : List Byte}
    (h : buf.data.drop buf.pos = a :: b :: c :: d :: rest) :
    readByteArray buf =
      if (sumBytes a b c d).toInt < 0 ∨ (sumBytes a b c d).toInt > rest.length then
        .error .CORRUPT_BYTE_ARRAY_ON_READ { buf with pos := buf.pos + 4 }
      else .ok (rest.take (sumBytes a b c d).toNat)
        { buf with pos := buf.pos + 4 + (sumBytes a b c d).toNat } := by
  have hrest : buf.data.drop (buf.pos + 4) = rest := by rw [← List.drop_drop, h]; rfl
  have hlen : (buf.data.length : ℤ) - (buf.pos + 4 : ℕ) = rest.length := by
    have hl := congrArg List.length h
    simp only [List.length_drop, List.length_cons] at hl
    omega
  have hget : (get : Read SSH2DataBuffer) { buf with pos := buf.pos + 4 } =
    .ok { buf with pos := buf.pos + 4 } { buf with pos := buf.pos + 4 } := rfl
  rw [readByteArray, bind_ok (readUInt32_cons h), bind_ok hget]
  dsimp only
  rw [hlen, hrest]
  split_ifs <;> rfl

/-- **An array that is read**. -/
theorem readByteArray_some (buf : SSH2DataBuffer) {raw rest : List Byte}
    (h : array (buf.data.drop buf.pos) = some (raw, rest)) :
    ∃ pos, readByteArray buf = .ok raw { buf with pos := pos } ∧ pos ≤ buf.data.length ∧
      buf.data.drop pos = rest := by
  rcases hd : buf.data.drop buf.pos with _ | ⟨a, _ | ⟨b, _ | ⟨c, _ | ⟨d, tail⟩⟩⟩⟩
  all_goals rw [hd] at h
  iterate 4 cases h
  rw [readByteArray_cons hd]
  dsimp only [array] at h
  split_ifs at h ⊢ with hlen
  obtain ⟨rfl, rfl⟩ := Prod.mk.inj (Option.some.inj h)
  refine ⟨_, rfl, ?_, ?_⟩
  · have hl := congrArg List.length hd
    simp only [List.length_drop, List.length_cons] at hl
    have htoNat : ((sumBytes a b c d).toNat : ℤ) = (sumBytes a b c d).toInt := by
      rw [BitVec.toInt_eq_toNat_cond] at hlen ⊢
      split_ifs at hlen ⊢ <;> omega
    omega
  · rw [← List.drop_drop, ← List.drop_drop, hd]
    rfl

/-- An array that is refused. -/
theorem readByteArray_none {buf : SSH2DataBuffer} (hpos : buf.pos ≤ buf.data.length)
    (h : array (buf.data.drop buf.pos) = none) :
    ∃ e pos, readByteArray buf = .error e { buf with pos := pos } ∧
      (pos ≤ buf.data.length ↔ 4 ≤ (buf.data.drop buf.pos).length) := by
  rcases lt_or_ge (buf.data.drop buf.pos).length 4 with hshort | hlong
  · refine ⟨.ArrayIndexOutOfBoundsException, buf.data.length + 1, ?_,
    iff_of_false (by omega) (by omega)⟩
    rw [readByteArray, bind_error (readUInt32_short hpos hshort)]
  · rcases hd : buf.data.drop buf.pos with _ | ⟨a, _ | ⟨b, _ | ⟨c, _ | ⟨d, tail⟩⟩⟩⟩
    all_goals rw [hd] at h hlong
    iterate 4 simp at hlong
    rw [readByteArray_cons hd]
    dsimp only [array] at h
    split_ifs at h ⊢ with hlen
    have hl := congrArg List.length hd
    rw [List.length_drop] at hl
    exact ⟨_, _, rfl, iff_of_true (by simp only [List.length_cons] at hl; omega) hlong⟩

/-! ### Integers -/

/-- An array is read as far as its length is. -/
theorem array_withLength (raw : List Byte) (h : raw.length < 2 ^ 31) (rest : List Byte) :
    array (withLength raw ++ rest) =
      if raw.length < shortfall raw.length then none
      else some (raw.take (raw.length - shortfall raw.length),
        raw.drop (raw.length - shortfall raw.length) ++ rest) := by
  have hlen := toInt_uint32 h
  set word := sumBytes (BitVec.ofNat 8 (raw.length / 256 ^ 3))
    (BitVec.ofNat 8 (raw.length / 256 ^ 2)) (BitVec.ofNat 8 (raw.length / 256 ^ 1))
    (BitVec.ofNat 8 (raw.length / 256 ^ 0)) with hword
  have harray : array (withLength raw ++ rest) =
      if word.toInt < 0 ∨ word.toInt > (raw ++ rest).length then none
      else some ((raw ++ rest).take word.toNat, (raw ++ rest).drop word.toNat) := rfl
  rw [harray, hlen, List.length_append]
  by_cases hneg : raw.length < shortfall raw.length
  · rw [if_pos hneg, if_pos (.inl (by omega))]
  · have htoNat : word.toNat = raw.length - shortfall raw.length := by
      rw [BitVec.toInt_eq_toNat_cond] at hlen
      split_ifs at hlen <;> omega
    rw [if_neg hneg, if_neg (by push_cast; omega), htoNat, List.take_append_of_le_length (by omega),
      List.drop_append_of_le_length (by omega)]

theorem array_of_readable {raw : List Byte} (h : raw.length < 2 ^ 31) (hr : Readable raw.length)
    (rest : List Byte) : array (withLength raw ++ rest) = some (raw, rest) := by
  rw [array_withLength raw h, shortfall_eq_zero_iff.mpr hr, if_neg (Nat.not_lt_zero _),
    Nat.sub_zero, List.take_length, List.drop_length, List.nil_append]

theorem readMPint_ok {buf buf' : SSH2DataBuffer} {raw : List Byte}
    (h : readByteArray buf = .ok raw buf') :
    readMPint buf = .ok (signed raw) buf' := by
  rw [readMPint, bind_ok h]
  cases raw <;> rfl

theorem readMPint_error {buf buf' : SSH2DataBuffer} {e : Failure}
    (h : readByteArray buf = .error e buf') :
    readMPint buf = .error e buf' := by rw [readMPint, bind_error h]

section MPint

variable {buf : SSH2DataBuffer} {n : ℕ} {rest : List Byte}

/-- The integer is read. -/
theorem readMPint_of_readable (hd : buf.data.drop buf.pos = mpint n ++ rest)
    (hlen : signedLength n < 2 ^ 31) (hr : Readable (signedLength n)) :
    ∃ buf', readMPint buf = .ok (n : ℤ) buf' ∧ buf'.pos ≤ buf'.data.length ∧
      buf'.data.drop buf'.pos = rest := by
  have hraw : (twosComplement n).length = signedLength n := length_bigEndian _ _
  have harray : array (buf.data.drop buf.pos) = some (twosComplement n, rest) := by
    rw [hd]
    exact array_of_readable (by rwa [hraw]) (by rwa [hraw]) rest
  obtain ⟨pos, hread, hpos, hrest⟩ := readByteArray_some buf harray
  refine ⟨{ buf with pos := pos }, ?_, hpos, hrest⟩
  rw [readMPint_ok hread, signed_twosComplement]

/-- Another integer is read, or none. -/
theorem readMPint_of_not_readable (hpos : buf.pos ≤ buf.data.length)
    (hd : buf.data.drop buf.pos = mpint n ++ rest) (hn : 0 < n) (hlen : signedLength n < 2 ^ 31)
    (hr : ¬ Readable (signedLength n)) (buf' : SSH2DataBuffer) :
    readMPint buf ≠ .ok (n : ℤ) buf' := by
  have hraw : (twosComplement n).length = signedLength n := length_bigEndian _ _
  have hshort : shortfall (signedLength n) ≠ 0 := fun h => hr (shortfall_eq_zero_iff.mp h)
  have harray := array_withLength (twosComplement n) (by rwa [hraw]) rest
  rw [show withLength (twosComplement n) = mpint n from rfl, ← hd, hraw] at harray
  intro hread
  split_ifs at harray with hneg
  · obtain ⟨e, pos, herror, -⟩ := readByteArray_none hpos harray
    rw [readMPint_error herror] at hread
    cases hread
  · obtain ⟨pos, hok, -⟩ := readByteArray_some buf harray
    have hlt := signed_take_twosComplement_lt (j := signedLength n - shortfall (signedLength n)) hn
      (by omega)
    rw [readMPint_ok hok] at hread
    injection hread with hvalue
    omega

end MPint

/-! ### Blobs -/

/-- The type of a key is read. -/
theorem readString_type (type : String) (rest : List Byte) (ht : (ascii type).length = 7)
    (hs : newString (ascii type) = type) :
    ∃ buf, readString ⟨withLength (ascii type) ++ rest, 0⟩ = .ok type buf ∧
      buf.pos ≤ buf.data.length ∧
      buf.data.drop buf.pos = rest := by
  have harray : array ((withLength (ascii type) ++ rest).drop 0) = some (ascii type, rest) :=
    array_of_readable (by rw [ht]; decide) (by rw [ht]; decide) rest
  obtain ⟨pos, hread, hpos, hrest⟩ := readByteArray_some ⟨withLength (ascii type) ++ rest, 0⟩ harray
  refine ⟨⟨_, pos⟩, ?_, hpos, hrest⟩
  rw [readString, bind_ok hread, hs]
  rfl

theorem decode_rsa {e n : ℕ} (he : 0 < e) (hn : 0 < n) (hle : signedLength e < 2 ^ 31)
    (hln : signedLength n < 2 ^ 31) :
    (∃ buf, decode ⟨rsaBlob e n, 0⟩ = .ok (.rsa n e) buf) ↔
      Readable (signedLength e) ∧ Readable (signedLength n) := by
  obtain ⟨buf, htype, hpos, hd⟩ := readString_type "ssh-rsa" (mpint e ++ mpint n)
    (by decide) (by decide)
  have hdecode : decode ⟨rsaBlob e n, 0⟩ = decodePublicKey buf := by
    rw [decode, rsaBlob, bind_ok htype]
    rfl
  rw [hdecode, decodePublicKey]
  constructor
  · rintro ⟨buf₃, h⟩
    obtain ⟨v, buf₁, h₁, h⟩ := bind_eq_ok.mp h
    obtain ⟨w, buf₂, h₂, h⟩ := bind_eq_ok.mp h
    obtain ⟨rfl, rfl⟩ : w = n ∧ v = e := by
      injection h with hkey
      injection hkey with hw hv
      exact ⟨hw, hv⟩
    -- a length that is misread gives another integer
    have hre : Readable (signedLength e) := by
      by_contra hr
      exact readMPint_of_not_readable hpos hd he hle hr buf₁ h₁
    refine ⟨hre, ?_⟩
    obtain ⟨buf₁', h₁', hpos₁, hd₁⟩ := readMPint_of_readable hd hle hre
    obtain rfl : buf₁' = buf₁ := by
      rw [h₁'] at h₁
      injection h₁
    rw [← List.append_nil (mpint n)] at hd₁
    by_contra hr
    exact readMPint_of_not_readable hpos₁ hd₁ hn hln hr buf₂ h₂
  · rintro ⟨hre, hrn⟩
    obtain ⟨buf₁, h₁, -, hd₁⟩ := readMPint_of_readable hd hle hre
    rw [← List.append_nil (mpint n)] at hd₁
    obtain ⟨buf₂, h₂, -, -⟩ := readMPint_of_readable hd₁ hln hrn
    refine ⟨buf₂, ?_⟩
    rw [bind_ok h₁, bind_ok h₂]
    rfl

theorem decode_dss (p q g y : ℕ) : ∃ buf,
    decode ⟨dssBlob p q g y, 0⟩ = .error .UNKNOWN_PUBLIC_KEY_CERTIFICATE_FORMAT buf := by
  obtain ⟨buf, htype, -, -⟩ := readString_type "ssh-dss"
    (mpint p ++ (mpint q ++ (mpint g ++ mpint y))) (by decide) (by decide)
  refine ⟨buf, ?_⟩
  rw [decode, dssBlob, bind_ok htype]
  rfl

/-! ### The position -/

theorem readMPint_bind {α : Type} (f : ℤ → Read α) :
    readMPint >>= f = readByteArray >>= fun raw => f (signed raw) := by
  funext buf
  rcases h : readByteArray buf with ⟨raw, buf'⟩ | ⟨e, buf'⟩
  · rw [bind_ok (readMPint_ok h), bind_ok h]
  · rw [bind_error (readMPint_error h), bind_error h]

/-- The position stays in the data exactly if this does not end in the length of one of
`k` arrays. -/
def Reads {α : Type} (k : ℕ) (x : Read α) : Prop :=
  ∀ buf : SSH2DataBuffer, buf.pos ≤ buf.data.length →
    (position (x buf) ≤ buf.data.length ↔ ¬ EndsInLength k (buf.data.drop buf.pos))

/-- **One array**, and what is read after it. -/
theorem readByteArray_bind_position {α : Type} {f : List Byte → Read α} {k : List Byte → ℕ}
    (hf : ∀ raw, Reads (k raw) (f raw)) {buf : SSH2DataBuffer} (hpos : buf.pos ≤ buf.data.length) :
    position ((readByteArray >>= f) buf) ≤ buf.data.length ↔
      ¬ ((buf.data.drop buf.pos).length < 4 ∨
        ∃ raw rest, array (buf.data.drop buf.pos) = some (raw, rest) ∧
        EndsInLength (k raw) rest) := by
  rcases harray : array (buf.data.drop buf.pos) with _ | ⟨raw, rest⟩
  · obtain ⟨e, pos, herror, hiff⟩ := readByteArray_none hpos harray
    rw [bind_error herror]
    show pos ≤ buf.data.length ↔ _
    rw [hiff]
    simp
  · obtain ⟨pos, hok, hle, hrest⟩ := readByteArray_some buf harray
    have hlong : ¬ (buf.data.drop buf.pos).length < 4 := by
      intro hshort
      rw [readByteArray, bind_error (readUInt32_short hpos hshort)] at hok
      cases hok
    have hnext := hf raw { buf with pos := pos } hle
    rw [hrest] at hnext
    rw [bind_ok hok, or_iff_right hlong]
    simpa using hnext

theorem Reads.readMPint {α : Type} {f : ℤ → Read α} {k : ℕ} (hf : ∀ v, Reads k (f v)) :
    Reads (k + 1) (readMPint >>= f) := by
  intro buf hpos
  rw [readMPint_bind]
  exact readByteArray_bind_position (k := fun _ => k) (fun raw => hf (signed raw)) hpos

theorem Reads.pure {α : Type} (a : α) : Reads 0 (pure a : Read α) := by
  intro buf hpos
  exact iff_of_true hpos id

theorem Reads.throw {α : Type} (e : Failure) : Reads 0 (throw e : Read α) := by
  intro buf hpos
  exact iff_of_true hpos id

theorem reads_of_type (type : String) :
    Reads (integers type) (if SSH2_DSA_KEY = type then decodeDSAPublicKey
      else if SSH2_RSA_KEY = type then decodePublicKey
      else throw .UNKNOWN_PUBLIC_KEY_CERTIFICATE_FORMAT) := by
  unfold integers
  split_ifs
  · exact .readMPint fun p => .readMPint fun q => .readMPint fun g => .readMPint fun y => .pure _
  · exact .readMPint fun e => .readMPint fun n => .pure _
  · exact .throw _

/-- The position stays in the blob exactly if this does not end inside a length. -/
theorem position_le_iff (blob : List Byte) :
    position (decode ⟨blob, 0⟩) ≤ blob.length ↔ ¬ CutOff blob := by
  have hdecode : decode = readByteArray >>= fun raw =>
      if SSH2_DSA_KEY = newString raw then decodeDSAPublicKey
      else if SSH2_RSA_KEY = newString raw then decodePublicKey
      else throw .UNKNOWN_PUBLIC_KEY_CERTIFICATE_FORMAT := by
    rw [decode, readString, bind_assoc]
    simp only [pure_bind]
  have hpos : (SSH2DataBuffer.mk blob 0).pos ≤ (SSH2DataBuffer.mk blob 0).data.length :=
    Nat.zero_le _
  rw [hdecode]
  exact readByteArray_bind_position (fun raw => reads_of_type (newString raw)) hpos

/-! ### Lines -/

theorem not_isDelimiter_of_mem_encode {bs : List Byte} {c : Char} (h : c ∈ Base64.encode bs) :
    isDelimiter c = false := by
  have hall : Base64.alphabet.all (fun c => !isDelimiter c) = true := by decide
  rcases Base64.mem_encode h with h | rfl
  · simpa using List.all_eq_true.mp hall c h
  · decide

/-- A token between delimiters. -/
theorem nextToken_append {blank token rest : List Char} (hb : ∀ c ∈ blank, isDelimiter c)
    (ht : token ≠ []) (hn : ∀ c ∈ token, isDelimiter c = false) (hr : ∀ c, rest.head? = some c →
      isDelimiter c) :
    nextToken (blank ++ token ++ rest) = .ok (token, rest) := by
  have hdrop : (blank ++ token ++ rest).dropWhile isDelimiter = token ++ rest := by
    obtain ⟨c, cs, rfl⟩ := List.exists_cons_of_ne_nil ht
    rw [List.append_assoc, List.dropWhile_append_of_pos hb, List.cons_append,
      List.dropWhile_cons_of_neg (by simp [hn c])]
  have htake : (token ++ rest).takeWhile (fun c => !isDelimiter c) = token := by
    rw [List.takeWhile_append_of_pos (by simpa using hn)]
    cases rest with
    | nil => simp
    | cons c cs => simp [hr c rfl]
  have hleft : (token ++ rest).dropWhile (fun c => !isDelimiter c) = rest := by
    rw [List.dropWhile_append_of_pos (by simpa using hn)]
    cases rest with
    | nil => rfl
    | cons c cs => simp [hr c rfl]
  unfold nextToken
  rw [hdrop]
  split
  · rename_i hnil
    exact absurd (List.append_eq_nil_iff.mp hnil).1 ht
  · rw [List.span_eq_takeWhile_dropWhile, htake, hleft]

/-- The second token of a line. -/
theorem extractOpenSSHBase64_line {type : String} {blob : List Byte} {line : String}
    (h : IsOpenSSHLine type blob line) (ht : type.toList ≠ [])
    (hn : ∀ c ∈ type.toList, isDelimiter c = false) (hb : blob ≠ []) :
    extractOpenSSHBase64 line.toList = .ok (Base64.encode blob) := by
  obtain ⟨blank, comment, hne, hblank, hcomment, hline⟩ := h
  obtain ⟨c, cs, rfl⟩ := List.exists_cons_of_ne_nil hne
  have hfirst : nextToken line.toList = .ok (type.toList, c :: cs ++ Base64.encode blob ++
    comment) := by
    have hrest : ∀ d, (c :: cs ++ Base64.encode blob ++ comment).head? = some d →
      isDelimiter d := by
      simpa using hblank c List.mem_cons_self
    have hempty : ∀ d ∈ ([] : List Char), isDelimiter d := by simp
    rw [hline, ← nextToken_append hempty ht hn hrest]
    simp
  have hsecond := nextToken_append hblank (Base64.encode_ne_nil hb)
    (fun c hc => not_isDelimiter_of_mem_encode hc) hcomment
  unfold extractOpenSSHBase64
  rw [hfirst]
  show tryCatch (nextToken (c :: cs ++ Base64.encode blob ++ comment) >>= fun p => pure p.1) _ = _
  rw [hsecond]
  rfl

/-- A line is loaded as its blob is decoded. -/
theorem load_line_iff {type : String} {blob : List Byte} {line : String}
    (h : IsOpenSSHLine type blob line) (ht : type = "ssh-rsa" ∨ type = "ssh-dss") (hb : blob ≠ [])
    {key : PublicKey} :
    load line = some key ↔ ∃ buf, decode ⟨blob, 0⟩ = .ok key buf := by
  have hs : ∃ cs, type.toList = 's' :: cs ∧ ∀ c ∈ type.toList, isDelimiter c = false := by
    have hrsa : "ssh-rsa".toList.all (fun c => !isDelimiter c) = true := by decide
    have hdss : "ssh-dss".toList.all (fun c => !isDelimiter c) = true := by decide
    rcases ht with rfl | rfl
    · exact ⟨_, rfl, fun c hc => by simpa using List.all_eq_true.mp hrsa c hc⟩
    · exact ⟨_, rfl, fun c hc => by simpa using List.all_eq_true.mp hdss c hc⟩
  obtain ⟨cs, hcs, hn⟩ := hs
  have hextract := extractOpenSSHBase64_line h (by rw [hcs]; exact List.cons_ne_nil _ _) hn hb
  have hcons : ∃ tail, line.toList = 's' :: tail := by
    obtain ⟨blank, comment, -, -, -, hline⟩ := h
    rw [hline, hcs]
    exact ⟨_, rfl⟩
  obtain ⟨tail, htail⟩ := hcons
  have hbase64 : extractBase64 line.toList = .ok (Base64.encode blob) := by
    rw [← hextract, htail]
    rfl
  have hload : readerLoad line.toList = decodeBlob blob := by
    rw [readerLoad, hbase64]
    show decodeBlob (Base64.decode (Base64.encode blob)) = decodeBlob blob
    rw [Base64.decode_encode]
  rw [load, hload, decodeBlob]
  rcases decode ⟨blob, 0⟩ with ⟨ret, buf⟩ | ⟨e, buf⟩
  · constructor
    · intro hret
      obtain rfl : ret = key := Option.some.inj hret
      exact ⟨buf, rfl⟩
    · rintro ⟨buf', hret⟩
      injection hret with hret
      rw [hret]
      rfl
  · constructor
    · intro hret
      cases hret
    · rintro ⟨buf', hret⟩
      cases hret

/-- **RSA keys**: both lengths have to be read as they are. -/
theorem load_rsa_iff {e n : ℕ} (he : 0 < e) (hn : 0 < n) (hle : signedLength e < 2 ^ 31)
    (hln : signedLength n < 2 ^ 31) {line : String}
    (hline : IsOpenSSHLine "ssh-rsa" (rsaBlob e n) line) :
    load line = some (.rsa n e) ↔ Readable (signedLength e) ∧ Readable (signedLength n) := by
  rw [load_line_iff hline (.inl rfl) (List.cons_ne_nil _ _), decode_rsa he hn hle hln]

/-- **DSA keys** are never loaded. -/
theorem load_dss {p q g y : ℕ} {line : String}
    (hline : IsOpenSSHLine "ssh-dss" (dssBlob p q g y) line) :
    load line = none := by
  obtain ⟨buf, herror⟩ := decode_dss p q g y
  rw [Option.eq_none_iff_forall_ne_some]
  intro key hkey
  obtain ⟨buf', hok⟩ := (load_line_iff hline (.inr rfl) (List.cons_ne_nil _ _)).mp hkey
  rw [herror] at hok
  cases hok

/-- **What is loaded**: an RSA key with its own integers exactly if both lengths can be read, no DSA
key, and the position stays in the blob exactly if this does not end inside a length. -/
theorem loads_iff (line : String) (blob : List Byte) :
    (∀ e n : ℕ, 0 < e → 0 < n → signedLength e < 2 ^ 31 → signedLength n < 2 ^ 31 →
      IsOpenSSHLine "ssh-rsa" (rsaBlob e n) line →
        (load line = some (.rsa n e) ↔ Readable (signedLength e) ∧ Readable (signedLength n))) ∧
    (∀ p q g y : ℕ, IsOpenSSHLine "ssh-dss" (dssBlob p q g y) line →
      load line ≠ some (.dsa y p q g)) ∧
    (position (decode ⟨blob, 0⟩) ≤ blob.length ↔ ¬ CutOff blob) := by
  refine ⟨fun e n he hn hle hln hline => load_rsa_iff he hn hle hln hline, fun p q g y hline => ?_,
    position_le_iff blob⟩
  rw [load_dss hline]
  exact Option.some_ne_none _ ∘ Eq.symm

/-- A line without a comment. -/
def openSSHLine (type : String) (blob : List Byte) : String :=
  String.ofList (type.toList ++ [' '] ++ Base64.encode blob)

theorem isOpenSSHLine_openSSHLine (type : String) (blob : List Byte) :
    IsOpenSSHLine type blob (openSSHLine type blob) := by
  have hblank : ∀ c ∈ [' '], isDelimiter c = true := List.forall_mem_singleton.mpr (by decide)
  refine ⟨[' '], [], List.cons_ne_nil _ _, hblank, (fun c hc => by cases hc), ?_⟩
  rw [openSSHLine, String.toList_ofList, List.append_nil]

theorem signedLength_two_pow (k : ℕ) : signedLength (2 ^ k) = (k + 1) / 8 + 1 := by
  rw [signedLength, Nat.size_pow]

/-- A key of 8 bits, a DSA key of small integers, and an empty blob. -/
theorem loads_small :
    load (openSSHLine "ssh-rsa" (rsaBlob (2 ^ 4) (2 ^ 7))) = some (.rsa (2 ^ 7 : ℕ) (2 ^ 4 : ℕ)) ∧
      load (openSSHLine "ssh-dss" (dssBlob 23 11 4 9)) ≠ some (.dsa 9 23 11 4) ∧
      ¬ position (decode ⟨[], 0⟩) ≤ 0 := by
  have hrsa := (loads_iff (openSSHLine "ssh-rsa" (rsaBlob (2 ^ 4) (2 ^ 7))) []).1
  obtain ⟨-, hdss, hpos⟩ := loads_iff (openSSHLine "ssh-dss" (dssBlob 23 11 4 9)) []
  refine ⟨?_, hdss 23 11 4 9 (isOpenSSHLine_openSSHLine _ _), fun h => hpos.mp h (.inl (by decide))⟩
  have he := signedLength_two_pow 4
  have hn := signedLength_two_pow 7
  refine (hrsa (2 ^ 4) (2 ^ 7) (by decide) (by decide) ?_ ?_ (isOpenSSHLine_openSSHLine _ _)).mpr
    ⟨?_, ?_⟩
  · rw [he]; decide
  · rw [hn]; decide
  · rw [he]; decide
  · rw [hn]; decide

/-- A power of two as the modulus. -/
theorem load_two_pow_ne {k : ℕ} (hlen : (k + 1) / 8 + 1 < 2 ^ 31)
    (h : ¬ Readable ((k + 1) / 8 + 1)) :
    load (openSSHLine "ssh-rsa" (rsaBlob (2 ^ 4) (2 ^ k))) ≠
      some (.rsa (2 ^ k : ℕ) (2 ^ 4 : ℕ)) := by
  have he := signedLength_two_pow 4
  have hn := signedLength_two_pow k
  intro hload
  have hreadable :=
    ((load_rsa_iff (by decide) (Nat.two_pow_pos k) (by rw [he]; decide) (by rwa [hn])
      (isOpenSSHLine_openSSHLine _ _)).mp hload).2
  rw [hn] at hreadable
  exact h hreadable

/-- A modulus of 1024 bits has 129 bytes, and is not loaded. -/
theorem not_loads_1024 :
    load (openSSHLine "ssh-rsa" (rsaBlob (2 ^ 4) (2 ^ 1023))) ≠
      some (.rsa (2 ^ 1023 : ℕ) (2 ^ 4 : ℕ)) :=
  load_two_pow_ne (by decide) (by decide)

end ServeD.Utils.PublicKeys
