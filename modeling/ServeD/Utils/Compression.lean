import ServeD.Lib.Loops
import ServeD.Lib.Texts

/-! # Compressed strings

`compress` and `decompress`. The compressed bytes are made into a `String` and back, which keeps
them only if they happen to be UTF-8; otherwise the inflater meets bytes that no deflater made, and
the loop, which catches the format exception inside, is never finished.

* `compress_iff`, `decompress_iff`: what the loops give, if they end;
* `roundTrips_iff`: the strings that come back. -/

namespace ServeD.Utils.Compression

open ServeD.Lib.Loops ServeD.Lib.Texts

/-! ### Strings and bytes -/

/-- The code units of a string, with any surrogates. -/
abbrev JString := List ℕ

def isHigh (u : ℕ) : Bool := 0xd800 ≤ u && u < 0xdc00

def isLow (u : ℕ) : Bool := 0xdc00 ≤ u && u < 0xe000

/-- The character of a unit that is not in a pair. -/
def single (u : ℕ) : Char := if isHigh u || isLow u then '?' else Char.ofNat u

/-- The characters that are encoded. -/
def characters : JString → Text
  | [] => []
  | [u] => [single u]
  | u :: v :: s =>
    if isHigh u && isLow v then Char.ofNat (0x10000 + (u - 0xd800) * 0x400 + (v - 0xdc00)) ::
      characters s
    else single u :: characters (v :: s)

/-- `input.getBytes` -/
def getBytes (s : JString) : List UInt8 := utf8 (characters s)

/-- `new String`: malformed bytes are replaced in some way. -/
structure Decoder where
  newString : List UInt8 → JString
  newString_utf8 : ∀ t, newString (utf8 t) = utf16 t
  wellFormed : ∀ bytes, ∃ t, newString bytes = utf16 t

/-- A string without unpaired surrogates. -/
def WellFormed (s : JString) : Prop := ∃ t, s = utf16 t

/-! ### Streams -/

/-- The streams of the deflater at its best compression, and the inflater, which reads them and no
others to the end. -/
structure Zlib where
  deflate : List UInt8 → List UInt8
  inflate : List UInt8 → Option (List UInt8)
  /-- a `DataFormatException` is thrown; otherwise there is nothing to read -/
  complains : List UInt8 → Bool
  inflate_deflate : ∀ bytes, inflate (deflate bytes) = some bytes
  deflate_inflate : ∀ stream bytes, inflate stream = some bytes → stream = deflate bytes

structure Deflater where
  pending : List UInt8
  finished : Bool

/-- `compressor.deflate(buf)`, with the bytes written to `buf`. -/
def Deflater.deflate (d : Deflater) : List UInt8 × Deflater :=
  (d.pending.take 128, ⟨d.pending.drop 128, (d.pending.drop 128).isEmpty⟩)

inductive Inflated where
  | count (buf : List UInt8)
  | dataFormatException

structure Inflater where
  /-- what is to be read of a stream, if it is one -/
  pending : Option (List UInt8)
  complains : Bool
  finished : Bool

/-- `decompressor.inflate(buf)` -/
def Inflater.inflate (i : Inflater) : Inflated × Inflater :=
  match i.pending with
  | some bytes =>
    (.count (bytes.take 128),
      { i with pending := some (bytes.drop 128), finished := (bytes.drop 128).isEmpty })
  | none => (if i.complains then .dataFormatException else .count [], i)

/-! ### The source -/

section Source

variable (zlib : Zlib) (decoder : Decoder)

/-- The round of `compress`, with the bytes of `bos`. -/
def compressRound (s : Deflater × List UInt8) : Deflater × List UInt8 :=
  let (buf, compressor) := s.1.deflate
  (compressor, s.2 ++ buf)

def compress (fuel : ℕ) (input : JString) : Option JString :=
  let compressor : Deflater := ⟨zlib.deflate (getBytes input), false⟩
  (loop (·.1.finished) compressRound fuel (compressor, [])).map fun s => decoder.newString s.2

/-- The round of `decompress`: the exception is logged. -/
def decompressRound (s : Inflater × List UInt8) : Inflater × List UInt8 :=
  match s.1.inflate with
  | (.count buf, decompressor) => (decompressor, s.2 ++ buf)
  | (.dataFormatException, decompressor) => (decompressor, s.2)

def decompress (fuel : ℕ) (input : JString) : Option JString :=
  let decompressor : Inflater :=
    ⟨zlib.inflate (getBytes input), zlib.complains (getBytes input), false⟩
  (loop (·.1.finished) decompressRound fuel (decompressor, [])).map fun s => decoder.newString s.2

/-- **Both end, and the string comes back.** -/
def RoundTrips (s : JString) : Prop :=
  ∃ compressed, (∃ n, compress zlib decoder n s = some compressed) ∧
    ∃ m, decompress zlib decoder m compressed = some s

end Source

/-! ### Well-formed strings -/

section Strings

theorem characters_cons {u : ℕ} (h : isHigh u = false) (s : JString) :
    characters (u :: s) = single u :: characters s := by
  rcases s with _ | ⟨v, s⟩
  · rfl
  · rw [characters, h, Bool.false_and, if_neg Bool.false_ne_true]

theorem not_surrogate (c : Char) : isHigh c.toNat = false ∧ isLow c.toNat = false := by
  have hvalid : c.toNat.isValidChar := c.valid
  simp only [isHigh, isLow, Bool.and_eq_false_iff, decide_eq_false_iff_not]
  rcases hvalid with h | ⟨h, -⟩
  · omega
  · omega

theorem characters_units (c : Char) (s : JString) :
    characters (units c ++ s) = c :: characters s := by
  obtain ⟨hhigh, hlow⟩ := not_surrogate c
  rw [units]
  split
  · rw [List.singleton_append, characters_cons hhigh, single, hhigh, hlow, Bool.or_self,
      if_neg Bool.false_ne_true, Char.ofNat_toNat]
  · rename_i hlarge
    have hmax : c.toNat < 0x110000 := by
      have hvalid : c.toNat.isValidChar := c.valid
      rcases hvalid with h | ⟨-, h⟩ <;> omega
    have hu : isHigh (0xd800 + (c.toNat - 0x10000) / 0x400) = true := by
      simp only [isHigh, Bool.and_eq_true, decide_eq_true_eq]
      omega
    have hv : isLow (0xdc00 + (c.toNat - 0x10000) % 0x400) = true := by
      simp only [isLow, Bool.and_eq_true, decide_eq_true_eq]
      omega
    have hsum : 0x10000 + (0xd800 + (c.toNat - 0x10000) / 0x400 - 0xd800) * 0x400 +
        (0xdc00 + (c.toNat - 0x10000) % 0x400 - 0xdc00) = c.toNat := by omega
    rw [List.cons_append, List.singleton_append, characters, hu, hv, Bool.and_self, if_pos rfl,
      hsum, Char.ofNat_toNat]

/-- A well-formed string is encoded character by character. -/
theorem getBytes_utf16 (t : Text) : getBytes (utf16 t) = utf8 t := by
  have hcharacters : characters (utf16 t) = t := by
    induction t with
    | nil => rfl
    | cons c t ih => rw [utf16_cons, characters_units, ih]
  rw [getBytes, hcharacters]

/-- What is encoded is well-formed. -/
theorem newString_getBytes (decoder : Decoder) {s : JString} :
    decoder.newString (getBytes s) = s ↔ WellFormed s := by
  constructor
  · intro h
    obtain ⟨t, ht⟩ := decoder.wellFormed (getBytes s)
    exact ⟨t, h.symm.trans ht⟩
  · rintro ⟨t, rfl⟩
    rw [getBytes_utf16, decoder.newString_utf8]

/-- Bytes survive as a string if they are UTF-8. -/
theorem getBytes_newString (decoder : Decoder) {bytes : List UInt8} :
    getBytes (decoder.newString bytes) = bytes ↔ ∃ t, utf8 t = bytes := by
  constructor
  · intro h
    obtain ⟨t, ht⟩ := decoder.wellFormed bytes
    rw [ht, getBytes_utf16] at h
    exact ⟨t, h⟩
  · rintro ⟨t, rfl⟩
    rw [decoder.newString_utf8, getBytes_utf16]

end Strings

/-! ### The loops -/

section Loops

variable (zlib : Zlib) (decoder : Decoder)

theorem drop_eq_nil_or (bytes : List UInt8) :
    (bytes.drop 128).isEmpty = true ∧ bytes.take 128 = bytes ∨
      (bytes.drop 128).isEmpty = false ∧ (bytes.drop 128).length < bytes.length := by
  rcases Nat.lt_or_ge 128 bytes.length with hlt | hle
  · right
    rw [List.isEmpty_eq_false_iff, ne_eq, List.drop_eq_nil_iff, List.length_drop]
    omega
  · left
    rw [List.isEmpty_iff, List.drop_eq_nil_iff]
    exact ⟨hle, List.take_of_length_le hle⟩

/-- **The deflater** gives its stream in pieces. -/
theorem compress_ends (stream bos : List UInt8) :
    ∃ d, Ends (·.1.finished) compressRound (⟨stream, false⟩, bos) (d, bos ++ stream) := by
  induction hn : stream.length using Nat.strongRecOn generalizing stream bos with
  | ind n ih =>
    rcases drop_eq_nil_or stream with ⟨hlast, htake⟩ | ⟨hmore, hlen⟩
    · refine ⟨⟨stream.drop 128, true⟩, (ends_step_iff rfl).mpr ?_⟩
      refine (ends_finished_iff ?_).mpr ?_
      · exact hlast
      · rw [compressRound, Deflater.deflate, hlast, htake]
    · obtain ⟨d, hd⟩ := ih (stream.drop 128).length (hn ▸ hlen) (stream.drop 128)
        (bos ++ stream.take 128) rfl
      refine ⟨d, (ends_step_iff rfl).mpr ?_⟩
      rw [List.append_assoc, List.take_append_drop] at hd
      rwa [compressRound, Deflater.deflate, hmore]

theorem decompressRound_stream (bytes bos : List UInt8) (complains finished : Bool) :
    decompressRound (⟨some bytes, complains, finished⟩, bos) =
      (⟨some (bytes.drop 128), complains, (bytes.drop 128).isEmpty⟩, bos ++ bytes.take 128) := rfl

/-- **The inflater** gives what a stream contains in pieces. -/
theorem decompress_ends (complains : Bool) (bytes bos : List UInt8) :
    ∃ i, Ends (·.1.finished) decompressRound (⟨some bytes, complains, false⟩, bos)
      (i, bos ++ bytes) := by
  induction hn : bytes.length using Nat.strongRecOn generalizing bytes bos with
  | ind n ih =>
    rcases drop_eq_nil_or bytes with ⟨hlast, htake⟩ | ⟨hmore, hlen⟩
    · refine ⟨⟨some (bytes.drop 128), complains, true⟩, (ends_step_iff rfl).mpr ?_⟩
      refine (ends_finished_iff ?_).mpr ?_
      · exact hlast
      · rw [decompressRound_stream, hlast, htake]
    · obtain ⟨i, hi⟩ := ih (bytes.drop 128).length (hn ▸ hlen) (bytes.drop 128)
        (bos ++ bytes.take 128) rfl
      refine ⟨i, (ends_step_iff rfl).mpr ?_⟩
      rw [List.append_assoc, List.take_append_drop] at hi
      rwa [decompressRound_stream, hmore]

/-- On anything else it is never finished. -/
theorem not_decompress_ends (complains : Bool) (bos : List UInt8) (t : Inflater × List UInt8) :
    ¬ Ends (·.1.finished) decompressRound (⟨none, complains, false⟩, bos) t := by
  refine not_ends (I := fun s => s.1.pending = none ∧ s.1.finished = false) (fun s h =>
    h.2) ?_ ⟨rfl, rfl⟩
  rintro ⟨⟨pending, complains, finished⟩, bos⟩ ⟨rfl, rfl⟩
  rw [decompressRound, Inflater.inflate]
  split
  · rename_i h
    obtain ⟨-, rfl⟩ := Prod.mk.inj h
    exact ⟨rfl, rfl⟩
  · rename_i h
    obtain ⟨-, rfl⟩ := Prod.mk.inj h
    exact ⟨rfl, rfl⟩

/-- **`compress` ends**, with the stream as a string. -/
theorem compress_iff {s compressed : JString} : (∃ n, compress zlib decoder n s = some compressed) ↔
    compressed = decoder.newString (zlib.deflate (getBytes s)) := by
  obtain ⟨d, hd⟩ := compress_ends (zlib.deflate (getBytes s)) []
  rw [List.nil_append] at hd
  constructor
  · rintro ⟨n, hn⟩
    obtain ⟨t, ht, rfl⟩ := Option.map_eq_some_iff.mp hn
    rw [← hd.unique ⟨n, ht⟩]
  · rintro rfl
    obtain ⟨n, hn⟩ := hd
    exact ⟨n, by rw [compress, hn]; rfl⟩

/-- **`decompress` ends** on streams only. -/
theorem decompress_iff {s r : JString} : (∃ n, decompress zlib decoder n s = some r) ↔
    ∃ bytes, zlib.inflate (getBytes s) = some bytes ∧ r = decoder.newString bytes := by
  constructor
  · rintro ⟨n, hn⟩
    obtain ⟨t, ht, rfl⟩ := Option.map_eq_some_iff.mp hn
    rcases hstream : zlib.inflate (getBytes s) with _ | bytes
    · rw [hstream] at ht
      exact absurd ⟨n, ht⟩ (not_decompress_ends _ _ _)
    · obtain ⟨i, hi⟩ := decompress_ends (zlib.complains (getBytes s)) bytes []
      rw [hstream] at ht
      rw [List.nil_append] at hi
      exact ⟨bytes, rfl, by rw [← hi.unique ⟨n, ht⟩]⟩
  · rintro ⟨bytes, hstream, rfl⟩
    obtain ⟨i, n, hn⟩ := decompress_ends (zlib.complains (getBytes s)) bytes []
    exact ⟨n, by rw [decompress, hstream, hn]; rfl⟩

variable {zlib decoder}

theorem roundTrips_iff_inflate {s : JString} : RoundTrips zlib decoder s ↔
    ∃ bytes, zlib.inflate (getBytes (decoder.newString (zlib.deflate (getBytes s)))) = some bytes ∧
      s = decoder.newString bytes := by
  simp only [RoundTrips, compress_iff, decompress_iff, exists_eq_left]

/-- Its stream is made into a string and back as it is. -/
def StreamIsUtf8 (zlib : Zlib) (s : JString) : Prop := ∃ t, utf8 t = zlib.deflate (getBytes s)

/-- By chance, the stream with its malformed bytes replaced is that of other bytes,
which make the same string. -/
def ByChance (zlib : Zlib) (decoder : Decoder) (s : JString) : Prop :=
  ∃ bytes, bytes ≠ getBytes s ∧ decoder.newString bytes = s ∧
    zlib.deflate bytes = getBytes (decoder.newString (zlib.deflate (getBytes s)))

/-- A replacement character stands for malformed bytes. -/
def Decoder.Replaces (decoder : Decoder) : Prop :=
  ∀ bytes, (∀ t, utf8 t ≠ bytes) → 0xfffd ∈ decoder.newString bytes

/-- There is no chance for a string without replacement characters. -/
theorem not_byChance {s : JString} (hdecoder : decoder.Replaces) (hs : 0xfffd ∉ s) :
    ¬ ByChance zlib decoder s := by
  rintro ⟨bytes, hne, hbytes, -⟩
  by_cases hutf8 : ∃ t, utf8 t = bytes
  · obtain ⟨t, rfl⟩ := hutf8
    rw [decoder.newString_utf8] at hbytes
    exact hne (by rw [← hbytes, getBytes_utf16])
  · exact hs (hbytes ▸ hdecoder bytes fun t ht => hutf8 ⟨t, ht⟩)

theorem roundTrips_iff_chance {s : JString} : RoundTrips zlib decoder s ↔
    WellFormed s ∧ (StreamIsUtf8 zlib s ∨ ByChance zlib decoder s) := by
  rw [roundTrips_iff_inflate]
  constructor
  · rintro ⟨bytes, hinflate, hs⟩
    have hstream := zlib.deflate_inflate _ _ hinflate
    have hwell : WellFormed s := by
      obtain ⟨t, ht⟩ := decoder.wellFormed bytes
      exact ⟨t, hs.trans ht⟩
    by_cases hbytes : bytes = getBytes s
    · rw [hbytes] at hstream
      exact ⟨hwell, .inl ((getBytes_newString decoder).mp hstream)⟩
    · exact ⟨hwell, .inr ⟨bytes, hbytes, hs.symm, hstream.symm⟩⟩
  · rintro ⟨hwell, hutf8 | ⟨bytes, -, hs, hstream⟩⟩
    · refine ⟨getBytes s, ?_, ((newString_getBytes decoder).mpr hwell).symm⟩
      rw [(getBytes_newString decoder).mpr hutf8, zlib.inflate_deflate]
    · exact ⟨bytes, by rw [← hstream, zlib.inflate_deflate], hs.symm⟩

end Loops

/-! ### A short string -/

/-- The stream of `a`. -/
def streamOfA : List UInt8 := [0x78, 0xda, 0x4b, 0x04, 0x00, 0x00, 0x62, 0x00, 0x62]

/-- Streams that are like those of the real deflater for `a`. -/
def zlibOfA : Zlib where
  deflate bytes := if bytes = [0x61] then streamOfA else 0 :: bytes
  inflate
    | 0 :: bytes => if bytes = [0x61] then none else some bytes
    | stream => if stream = streamOfA then some [0x61] else none
  complains _ := true
  inflate_deflate bytes := by
    by_cases h : bytes = [0x61]
    · rw [if_pos h, h]
      rfl
    · rw [if_neg h]
      exact if_neg h
  deflate_inflate stream bytes h := by
    split at h
    · split at h
      · cases h
      · rename_i hne
        obtain rfl := Option.some.inj h
        exact (if_neg hne).symm
    · split at h
      · rename_i heq
        obtain rfl := Option.some.inj h
        rw [if_pos rfl, heq]
      · cases h

/-- Every byte of a malformed text that is not ASCII is replaced. -/
def replacing : Decoder where
  newString bytes :=
    match utf8Decode bytes with
    | some t => utf16 t
    | none => utf16 (bytes.map fun b => if b < 128 then Char.ofNat b.toNat else '\uFFFD')
  newString_utf8 t := by rw [utf8Decode_eq_some_iff.mpr rfl]
  wellFormed bytes := by
    split
    · exact ⟨_, rfl⟩
    · exact ⟨_, rfl⟩

theorem replaces_replacing : replacing.Replaces := by
  intro bytes hbytes
  have hnone : utf8Decode bytes = none := by
    rw [← Option.not_isSome_iff_eq_none]
    intro hsome
    obtain ⟨t, ht⟩ := Option.isSome_iff_exists.mp hsome
    exact hbytes t (utf8Decode_eq_some_iff.mp ht)
  have hmap : replacing.newString bytes =
      utf16 (bytes.map fun b => if b < 128 then Char.ofNat b.toNat else '\uFFFD') := by
    unfold replacing
    dsimp only
    rw [hnone]
  -- a text of bytes below 128 is UTF-8
  obtain ⟨b, hb, hlarge⟩ : ∃ b ∈ bytes, ¬ b < 128 := by
    by_contra hsmall
    have hascii : ∀ n < 128, (Char.ofNat n).toNat = n := by decide
    have hall : ∀ b ∈ bytes, (Char.ofNat b.toNat).toNat = b.toNat ∧ b.toNat < 128 := by
      intro b hb
      have hlt : b.toNat < 128 := by
        by_contra hlarge
        exact hsmall ⟨b, hb, fun hlt => hlarge (UInt8.lt_iff_toNat_lt.mp hlt)⟩
      exact ⟨hascii b.toNat hlt, hlt⟩
    refine hbytes (bytes.map fun b => Char.ofNat b.toNat) ?_
    rw [utf8_ascii, List.map_map]
    · refine (List.map_congr_left fun b hb => ?_).trans (List.map_id bytes)
      show UInt8.ofNat (Char.ofNat b.toNat).toNat = b
      rw [(hall b hb).1, UInt8.ofNat_toNat]
    · intro c hc
      obtain ⟨b, hb, rfl⟩ := List.mem_map.mp hc
      have hchar := hall b hb
      omega
  rw [hmap]
  refine List.mem_flatMap.mpr ⟨'\uFFFD', List.mem_map.mpr ⟨b, hb, if_neg hlarge⟩, by decide⟩

end ServeD.Utils.Compression
