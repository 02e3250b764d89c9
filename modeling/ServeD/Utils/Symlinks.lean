import Mathlib.Data.List.DropRight
import ServeD.Lib.Failures
import ServeD.Lib.Texts

/-! # Symlinks in backups

`SvdArchiver` writes one line for each symlink of a source tree to a metadata file, and creates the
symlinks from it when a backup is unpacked. The line has the path and the destination with `**`
between them: the low bytes of the path's UTF-16 units, and at most 512 bytes of the destination. It
is read as UTF-8, and split at `**`.

`restored_iff` says which pairs come back: those with an ASCII path, a short destination, and no
separator or end of a line in the wrong place. -/

namespace ServeD.Utils.Symlinks

open ServeD.Lib.Failures ServeD.Lib.Texts

/-- A path relative to the source tree, and the destination of the symlink there. -/
abbrev Link := Text × Text

/-! ### Writing -/

/-- `DataOutputStream.writeBytes`: the low byte of each unit. -/
def writeBytes (s : List ℕ) : List UInt8 := s.map fun u => UInt8.ofNat (u % 256)

def bufSize : ℕ := 512

/-- `_.toChar` on a byte, which is signed. -/
def toChar (b : UInt8) : ℕ := if b.toNat < 128 then b.toNat else 0xff00 + b.toNat

/-- `SvdSymlink.getSymlinkDestination`: what `readlink` puts into the buffer. -/
def getSymlinkDestination (destination : Text) : List ℕ :=
  ((utf8 destination).take bufSize).map toChar

/-- The line that `updateByTimeStampDiff` writes for a symlink. -/
def writeLink (link : Link) : List UInt8 :=
  writeBytes (utf16 link.1 ++ utf16 ['*', '*'] ++ getSymlinkDestination link.2 ++ utf16 ['\n'])

/-- The metadata file. -/
def metadata (links : List Link) : List UInt8 := links.flatMap writeLink

/-! ### Reading -/

/-- The parts of a text between the separators, after the beginning `acc` of the first one. -/
def partsFrom : Text → Text → List Text
  | acc, '*' :: '*' :: s => acc :: partsFrom [] s
  | acc, c :: s => partsFrom (acc ++ [c]) s
  | acc, [] => [acc]

/-- `split("\\*\\*")`: empty parts at the end are dropped, if there is a separator. -/
def split (s : Text) : List Text :=
  match partsFrom [] s with
  | [part] => [part]
  | parts => parts.rdropWhile (·.isEmpty)

/-- `entry.head` and `entry.tail.head`, which may raise. -/
def readLink (line : Text) : Option Link :=
  match split line with
  | path :: destination :: _ => some (path, destination)
  | _ => none

/-- The symlinks that `apply` creates. -/
def symlinks (bytes : List UInt8) : Option (List Link) := do
  let text ← utf8Decode bytes
  (lines text).mapM readLink

/-- What comes back from the metadata file. -/
structure Restorable (link : Link) : Prop where
  ascii : ∀ c ∈ link.1, c.toNat < 128
  path : OneLine link.1
  /-- The path neither has a separator nor ends with half of one. -/
  noSeparator : ¬ ['*', '*'] <:+: link.1 ++ ['*']
  nonempty : link.2 ≠ []
  destination : OneLine link.2
  separator : ¬ ['*', '*'] <:+: link.2
  length : (utf8 link.2).length ≤ 512

/-! ### Separators -/

/-- What is before and after the first separator. -/
def splitFirst : Text → Option (Text × Text)
  | '*' :: '*' :: s => some ([], s)
  | c :: s => (splitFirst s).map fun p => (c :: p.1, p.2)
  | [] => none

theorem partsFrom_eq (acc s : Text) :
    partsFrom acc s = match splitFirst s with
      | none => [acc ++ s]
      | some (a, b) => (acc ++ a) :: partsFrom [] b := by
  fun_induction partsFrom acc s with
  | case1 acc s ih => simp [splitFirst]
  | case2 acc c s hs ih =>
    rw [ih, splitFirst]
    · rcases splitFirst s with _ | ⟨a, b⟩ <;> simp
    · exact hs
  | case3 acc => simp [splitFirst]

theorem splitFirst_eq_none {s : Text} : splitFirst s = none ↔ ¬ ['*', '*'] <:+: s := by
  fun_induction splitFirst s with
  | case1 s => simp [List.prefix_iff_eq_append, List.infix_cons_iff]
  | case2 c s hs ih =>
    rw [Option.map_eq_none_iff, ih, List.infix_cons_iff, not_or]
    refine ⟨fun h => ⟨?_, h⟩, fun h => h.2⟩
    rintro ⟨t, ht⟩
    obtain ⟨hc, hs'⟩ := List.cons.inj ht
    exact hs t hc.symm hs'.symm
  | case3 => simp

theorem splitFirst_append {a : Text} (h : ¬ ['*', '*'] <:+: a ++ ['*']) (b : Text) :
    splitFirst (a ++ '*' :: '*' :: b) = some (a, b) := by
  induction a with
  | nil => rfl
  | cons c a ih =>
    rw [List.cons_append, List.infix_cons_iff, not_or] at h
    rw [List.cons_append, splitFirst, ih h.2]
    · rfl
    · rintro t rfl ht
      apply h.1
      cases a with
      | nil => exact ⟨[], rfl⟩
      | cons d a =>
        obtain ⟨rfl, -⟩ := List.cons.inj ht
        exact ⟨a ++ ['*'], rfl⟩

theorem eq_of_splitFirst {s a b : Text} (h : splitFirst s = some (a, b)) :
    s = a ++ '*' :: '*' :: b ∧ ¬ ['*', '*'] <:+: a ++ ['*'] := by
  fun_induction splitFirst s generalizing a b with
  | case1 s =>
    obtain ⟨rfl, rfl⟩ := Prod.mk.inj (Option.some.inj h)
    exact ⟨rfl, by decide⟩
  | case2 c s hs ih =>
    obtain ⟨⟨a', b'⟩, hsome, hab⟩ := Option.map_eq_some_iff.mp h
    obtain ⟨rfl, rfl⟩ := Prod.mk.inj hab
    obtain ⟨rfl, hno⟩ := ih hsome
    refine ⟨rfl, ?_⟩
    rw [List.cons_append, List.infix_cons_iff, not_or]
    refine ⟨?_, hno⟩
    rintro ⟨t, ht⟩
    obtain ⟨hc, ht⟩ := List.cons.inj ht
    -- the text after `c` begins with a star, whatever `a'` is
    have hstar : ∃ t, a' ++ '*' :: '*' :: b' = '*' :: t := by
      cases a' with
      | nil => exact ⟨_, rfl⟩
      | cons d a' => exact ⟨_, congrArg (· :: (a' ++ '*' :: '*' :: b')) (List.cons.inj ht).1.symm⟩
    obtain ⟨t, ht⟩ := hstar
    exact hs t hc.symm ht
  | case3 => cases h

/-- A line with two parts, of which the second one is not empty if it is the last one. -/
theorem parts_of_readLink {line path destination : Text}
    (h : readLink line = some (path, destination)) :
    ∃ parts, partsFrom [] line = path :: destination :: parts ∧
      (parts = [] → destination ≠ []) := by
  have hsplit : ∃ rest, split line = path :: destination :: rest := by
    unfold readLink at h
    rcases hs : split line with _ | ⟨p, _ | ⟨d, rest⟩⟩
    all_goals rw [hs] at h
    · cases h
    · cases h
    · obtain ⟨rfl, rfl⟩ := Prod.mk.inj (Option.some.inj h)
      exact ⟨rest, rfl⟩
  obtain ⟨rest, hrest⟩ := hsplit
  unfold split at hrest
  rcases hparts : partsFrom [] line with _ | ⟨p, _ | ⟨d, parts⟩⟩
  all_goals rw [hparts] at hrest
  · cases hrest
  · cases hrest
  have hprefix : path :: destination :: rest <+: p :: d :: parts := by
    rw [← hrest]
    exact List.rdropWhile_prefix _ _
  obtain ⟨rfl, htail⟩ := List.cons_prefix_cons.mp hprefix
  obtain ⟨rfl, -⟩ := List.cons_prefix_cons.mp htail
  refine ⟨parts, rfl, ?_⟩
  rintro rfl rfl
  have hdrop : [path, []].rdropWhile (·.isEmpty) = [path].rdropWhile (·.isEmpty) :=
    List.rdropWhile_concat_pos (fun x : Text => x.isEmpty) [path] [] rfl
  have hlong : [path].rdropWhile (·.isEmpty) = path :: [] :: rest := hdrop ▸ hrest
  have hle := (List.rdropWhile_prefix (fun x : Text => x.isEmpty) [path]).length_le
  rw [hlong] at hle
  simp at hle

/-- **Reading one line**: the two parts, and what follows them. -/
theorem eq_of_readLink {line path destination : Text}
    (h : readLink line = some (path, destination)) :
    ∃ rest, line = path ++ '*' :: '*' :: (destination ++ rest) ∧ ¬ ['*', '*'] <:+: path ++ ['*'] ∧
      ¬ ['*', '*'] <:+: destination ∧ (rest = [] → destination ≠ []) := by
  obtain ⟨parts, hparts, hlast⟩ := parts_of_readLink h
  rw [partsFrom_eq] at hparts
  rcases hfirst : splitFirst line with _ | ⟨a, b⟩
  · rw [hfirst] at hparts
    cases hparts
  rw [hfirst] at hparts
  obtain ⟨rfl, ha⟩ := eq_of_splitFirst hfirst
  obtain ⟨rfl, hb⟩ := List.cons.inj hparts
  rw [partsFrom_eq] at hb
  rcases hsecond : splitFirst b with _ | ⟨a', b'⟩
  · rw [hsecond] at hb
    obtain ⟨rfl, rfl⟩ := List.cons.inj hb
    exact ⟨[], by rw [List.append_nil]; rfl, ha, splitFirst_eq_none.mp hsecond, fun _ => hlast rfl⟩
  · rw [hsecond] at hb
    obtain ⟨rfl, -⟩ := List.cons.inj hb
    obtain ⟨rfl, ha'⟩ := eq_of_splitFirst hsecond
    refine ⟨'*' :: '*' :: b', rfl, ha, fun hin => ha' ?_, fun hnil => by cases hnil⟩
    exact hin.trans (List.infix_append' [] a' ['*'])

theorem readLink_append {path destination : Text} (hp : ¬ ['*', '*'] <:+: path ++ ['*'])
    (hd : ¬ ['*', '*'] <:+: destination) (hne : destination ≠ []) :
    readLink (path ++ '*' :: '*' :: destination) = some (path, destination) := by
  have hparts : partsFrom [] (path ++ '*' :: '*' :: destination) = [path, destination] := by
    rw [partsFrom_eq, splitFirst_append hp]
    dsimp only
    rw [partsFrom_eq, splitFirst_eq_none.mpr hd]
    rfl
  rw [readLink, split, hparts]
  have hlast : [path, destination].rdropWhile (·.isEmpty) = [path, destination] := by
    rw [List.rdropWhile_eq_self_iff]
    simpa using hne
  simp only [hlast]

/-! ### Bytes -/

theorem writeBytes_append (s t : List ℕ) : writeBytes (s ++ t) = writeBytes s ++ writeBytes t :=
  List.map_append

@[simp] theorem length_writeBytes (s : List ℕ) : (writeBytes s).length = s.length :=
  List.length_map _

/-- The bytes of the destination are written as they are. -/
theorem writeBytes_getSymlinkDestination (destination : Text) :
    writeBytes (getSymlinkDestination destination) = (utf8 destination).take bufSize := by
  have hbyte : ∀ b : UInt8, UInt8.ofNat (toChar b % 256) = b := by
    intro b
    have hlt := b.toNat_lt
    have hmod : toChar b % 256 = b.toNat := by
      unfold toChar
      split_ifs <;> omega
    rw [hmod, UInt8.ofNat_toNat]
  rw [writeBytes, getSymlinkDestination, List.map_map]
  calc ((utf8 destination).take bufSize).map _ = ((utf8 destination).take bufSize).map id :=
        List.map_congr_left fun b _ => hbyte b
    _ = (utf8 destination).take bufSize := List.map_id _

/-- What is written before the newline. -/
def body (link : Link) : List UInt8 :=
  writeBytes (utf16 link.1) ++ utf8 ['*', '*'] ++ (utf8 link.2).take bufSize

theorem writeLink_eq (link : Link) : writeLink link = body link ++ [UInt8.ofNat '\n'.toNat] := by
  rw [writeLink, writeBytes_append, writeBytes_append, writeBytes_append,
    writeBytes_getSymlinkDestination]
  rfl

theorem writeBytes_ascii {s : Text} (h : ∀ c ∈ s, c.toNat < 128) :
    writeBytes (utf16 s) = utf8 s := by
  rw [utf16_ascii h, utf8_ascii h, writeBytes, List.map_map]
  refine List.map_congr_left fun c hc => ?_
  have hlt := h c hc
  rw [Function.comp_apply, Nat.mod_eq_of_lt (by omega)]

/-- The line of a symlink that comes back. -/
theorem Restorable.body_eq {link : Link} (h : Restorable link) :
    body link = utf8 (link.1 ++ '*' :: '*' :: link.2) := by
  have hdest : (utf8 link.2).take bufSize = utf8 link.2 := List.take_of_length_le h.length
  rw [body, writeBytes_ascii h.ascii, hdest, utf8_append, List.append_assoc]
  rfl

theorem metadata_eq {links : List Link} (h : ∀ link ∈ links, Restorable link) :
    metadata links = utf8 (links.flatMap fun link => link.1 ++ '*' :: '*' :: link.2 ++ ['\n']) := by
  induction links with
  | nil => rfl
  | cons link links ih =>
    have hlink := (h link List.mem_cons_self).body_eq
    have htail := ih fun l hl => h l (List.mem_cons_of_mem link hl)
    rw [metadata, List.flatMap_cons, writeLink_eq, hlink, List.flatMap_cons,
      utf8_append _ (links.flatMap _), utf8_append _ ['\n'], ← htail]
    rfl

theorem readLinks_eq {links : List Link} (h : ∀ link ∈ links, Restorable link) :
    (lines (links.flatMap fun link => link.1 ++ '*' :: '*' :: link.2 ++ ['\n'])).mapM readLink =
      some links := by
  induction links with
  | nil => rfl
  | cons link links ih =>
    have hlink := h link List.mem_cons_self
    have hone : OneLine (link.1 ++ '*' :: '*' :: link.2) := by
      intro c hc
      rcases List.mem_append.mp hc with hc | hc
      · exact hlink.path c hc
      · rcases List.mem_cons.mp hc with rfl | hc
        · decide
        · rcases List.mem_cons.mp hc with rfl | hc
          · decide
          · exact hlink.destination c hc
    have hread : readLink (link.1 ++ '*' :: '*' :: link.2) = some link :=
      readLink_append hlink.noSeparator hlink.separator hlink.nonempty
    rw [List.flatMap_cons, List.append_assoc, List.singleton_append, lines_oneLine hone,
      List.mapM_cons, hread, ih fun l hl => h l (List.mem_cons_of_mem link hl)]
    rfl

theorem symlinks_metadata {links : List Link} (h : ∀ link ∈ links, Restorable link) :
    symlinks (metadata links) = some links := by
  rw [symlinks, utf8Decode_eq_some_iff.mpr (metadata_eq h).symm]
  exact readLinks_eq h

/-! ### What does not come back -/

/-- **One line**: a line that is read as the link it was written for. The bytes are not more than
those of the path and the destination, so nothing was dropped from them. -/
theorem restorable_of_readLink {link : Link} {text line : Text} (htext : utf8 text = body link)
    (hline : line = text ∨ line ++ ['\r'] = text) (hone : OneLine line)
    (h : readLink line = some link) :
    Restorable link := by
  obtain ⟨path, destination⟩ := link
  obtain ⟨rest, rfl, hp, hd, hne⟩ := eq_of_readLink h
  have hle := length_utf16_le path
  have hstars : (utf8 ['*', '*']).length = 2 := rfl
  have hbody : (body (path, destination)).length = (utf16 path).length + 2 + min bufSize
    (utf8 destination).length := by
    rw [body, List.length_append, List.length_append, length_writeBytes, hstars, List.length_take]
  have hlen : (utf8 (path ++ '*' :: '*' :: (destination ++ rest))).length =
      (utf8 path).length + 2 + ((utf8 destination).length + (utf8 rest).length) := by
    rw [← hstars, utf8_append, show utf8 ('*' :: '*' :: (destination ++ rest)) =
      utf8 ['*', '*'] ++ utf8 (destination ++ rest) from rfl, utf8_append]
    simp only [List.length_append]
    omega
  have hr : (utf8 ['\r']).length = 1 := rfl
  rcases hline with rfl | rfl
  · rw [← htext, hlen] at hbody
    obtain rfl : rest = [] := utf8_eq_nil (List.length_eq_zero_iff.mp (by omega))
    have hascii : (utf8 path).length ≤ (utf16 path).length := by omega
    have hshort : (utf8 destination).length ≤ bufSize := by omega
    exact ⟨ascii_of_length_le hascii, fun c hc => hone c (by simp [hc]), hp, hne rfl,
      fun c hc => hone c (by simp [hc]), hd, hshort⟩
  · rw [← htext, utf8_append, List.length_append, hlen] at hbody
    omega

theorem length_le_length_lines {links : List Link} {text : Text} (h : utf8 text = metadata links) :
    links.length ≤ (lines text).length := by
  induction links generalizing text with
  | nil => exact Nat.zero_le _
  | cons link links ih =>
    rw [metadata, List.flatMap_cons, writeLink_eq, List.append_assoc] at h
    obtain ⟨s, t, rfl, hs, ht⟩ := exists_of_utf8_eq_append (by decide) h
    obtain ⟨l, ls, hl, -⟩ := lines_newline s
    have hle := ih ht
    rw [lines_append, hl, List.length_append, List.length_cons, List.length_cons]
    omega

theorem restorable_of_readLinks {links : List Link} {text : Text} (h : utf8 text = metadata links)
    (hread : (lines text).mapM readLink = some links) : ∀ link ∈ links, Restorable link := by
  induction links generalizing text with
  | nil => exact fun link hl => absurd hl List.not_mem_nil
  | cons link links ih =>
    rw [metadata, List.flatMap_cons, writeLink_eq, List.append_assoc] at h
    obtain ⟨s, t, rfl, hs, ht⟩ := exists_of_utf8_eq_append (by decide) h
    obtain ⟨l, ls, hl, hone, hlast⟩ := lines_newline s
    have hcount := length_le_length_lines ht
    rw [lines_append, hl, List.cons_append, List.mapM_cons] at hread
    obtain ⟨link', hlink, hread⟩ := Option.bind_eq_some_iff.mp hread
    obtain ⟨links', hlinks, hread⟩ := Option.bind_eq_some_iff.mp hread
    obtain ⟨rfl, rfl⟩ := List.cons.inj (Option.some.inj hread)
    -- every line of the rest is needed there, so the first link has one line
    have hlength := length_of_mapM hlinks
    rw [List.length_append] at hlength
    obtain rfl : ls = [] := List.length_eq_zero_iff.mp (by omega)
    intro l' hl'
    rcases List.mem_cons.mp hl' with rfl | hl'
    · exact restorable_of_readLink hs (hlast rfl) hone hlink
    · exact ih ht hlinks l' hl'

end ServeD.Utils.Symlinks
