import ServeD.Web.Cookies

/-! # Cookies that come back

What `ToCookies` writes, `FromCookies` reads. The text of a cookie is a list of fields, each a name
with a value, a name alone, or a name with a date. The cutter takes a field at a time, but a date in
two pieces, since there is a comma in it, and the second piece, which is a name without a value, is
put back to the first.

`fromCookies_toCookies`: cookies are read back as they were written, but for the age of those that
are written with their expiry date, from which the time that went by is taken. -/

namespace ServeD.Web.CookieTrips

open ServeD.Lib.Texts ServeD.Lib.Backtracking ServeD.Lib.Integers
open ServeD.Lib.Patterns (isLineEnd)
open ServeD.Web.Cookies ServeD.Web.Cookies.CookieKeys

/-! ### Pieces -/

/-- A name that is cut off as it is. -/
structure KeySafe (k : Text) : Prop where
  ne : k ≠ []
  name : ∀ c ∈ k, isName c = true
  space : Ends isSpace k
  delim : Ends isDelim k
  dollar : Ends (· == '$') k

/-- What the cutter takes at a time. -/
inductive Seg where
  | plain (k v : Text)
  | quoted (k v : Text)
  | flag (k : Text)

namespace Seg

def key : Seg → Text
  | plain k _ | quoted k _ | flag k => k

/-- What follows the name. -/
def rest : Seg → Text
  | plain _ v => '=' :: v
  | quoted _ v => '=' :: '"' :: (escape v ++ ['"'])
  | flag _ => []

def text (seg : Seg) : Text := seg.key ++ seg.rest

/-- The name and the value. -/
def pair : Seg → Text × Option Text
  | plain k v | quoted k v => (k, some v)
  | flag k => (k, none)

def groups : Seg → Groups
  | plain _ v => [(3, v)]
  | quoted _ v => [(2, escape v)]
  | flag _ => []

/-- A name and a value that are cut off as they are. -/
structure Safe (seg : Seg) : Prop where
  key : KeySafe seg.key
  value : ∀ {k v : Text}, seg = plain k v → (∀ c ∈ v, isPlain c = true) ∧ Ends isQuote v

end Seg

/-- What may follow a piece: nothing, or a semicolon or the comma of a date and another name. -/
inductive Tail : Text → Text → Text → Prop
  | last : Tail [] [] []
  | next (rest : Text) (hspace : Ends isSpace rest) (hdelim : Ends isDelim rest) :
    Tail (';' :: rest) [';'] rest
  | comma (rest : Text) (hspace : Ends isSpace rest) : Tail (',' :: ' ' :: rest) [',', ' '] rest

section Cutting

variable {whole s rest tail d k v : Text}

theorem ends_append {p : Char → Bool} {a b : Text} (hne : a ≠ []) (h : Ends p a) :
    Ends p (a ++ b) := by
  obtain ⟨c, a, rfl⟩ := List.exists_cons_of_ne_nil hne
  exact h

theorem first_lead (hspace : Ends isSpace s) (hdelim : Ends isDelim s) :
    First whole Cutter.lead s ([], s) := by
  refine .starNil ?_
  rw [ways, ways_char_of_ends hspace, ways_char_of_ends hdelim]
  rfl

theorem first_dollars (h : Ends (· == '$') s) : First whole Cutter.dollars s ([], s) :=
  first_chars (w := []) (by simp) h

theorem first_name (hk : KeySafe k) (hrest : Ends isName rest) :
    First whole Cutter.name (k ++ rest) ([(1, k)], rest) :=
  (first_chars_plus hk.ne hk.name hrest).group

theorem Tail.eq_append (h : Tail tail d rest) : tail = d ++ rest := by
  cases h with
  | last => rfl
  | next rest hspace hdelim => rfl
  | comma rest hspace => rfl

theorem first_delim (h : Tail tail d rest) : First whole Cutter.delim tail ([(4, d)], rest) := by
  have hone : ∀ {c : Char} {t u : Text}, isSpace c = false → isDelim c = true → Ends isDelim t →
      First whole (.star (.char isSpace)) t ([], u) → First whole (.seq (.star (.char isSpace))
        (.alt (.seq (.plus (.char isDelim)) (.star (.char isSpace))) .stop)) (c :: t) ([], u) := by
    intro c t u hspace hdelim ht hspaces
    have hnone : First whole (.star (.char isSpace)) (c :: t) ([], c :: t) :=
      first_chars (w := []) (by simp) (by simpa [Ends] using hspace)
    have hplus : First whole (.plus (.char isDelim)) (c :: t) ([], t) :=
      first_chars_plus (w := [c]) (by simp) (by simpa using hdelim) ht
    exact hnone.seq (First.altLeft (hplus.seq hspaces))
  unfold Cutter.delim
  cases h with
  | last =>
    have hspaces : First whole (.star (.char isSpace)) [] ([], []) := .starNil rfl
    have hstop : First whole (.alt (.seq (.plus (.char isDelim)) (.star (.char isSpace))) .stop)
      [] ([], []) :=
      .altRight rfl (.stop rfl)
    exact First.group (w := []) (hspaces.seq hstop)
  | next rest hspace hdelim =>
    have hspaces : First whole (.star (.char isSpace)) rest ([], rest) :=
      first_chars (w := []) (by simp) hspace
    exact First.group (w := [';']) (hone rfl rfl hdelim hspaces)
  | comma rest hspace =>
    have hspaces : First whole (.star (.char isSpace)) (' ' :: rest) ([], rest) :=
      first_chars (w := [' ']) (by simp [isSpace]) hspace
    exact First.group (w := [',', ' ']) (hone rfl rfl (by simp [Ends, isDelim]) hspaces)

/-- A tail is nothing, or it begins with `;` or `,`. -/
theorem Tail.ends {p : Char → Bool} (h : Tail tail d rest) (hsemicolon : p ';' = false)
    (hcomma : p ',' = false) :
    Ends p tail := by
  cases h with
  | last => simp [Ends]
  | next rest hspace hdelim => simpa [Ends] using hsemicolon
  | comma rest hspace => simpa [Ends] using hcomma

theorem ways_seq_of_nil {r q : Regex} (h : ways whole r s = []) : ways whole (.seq r q) s = [] := by
  rw [ways, h]
  rfl

/-- An escaped text is taken up to the quote behind it. -/
theorem first_inside : ∀ v : Text,
    First whole Cutter.inside (v.flatMap escaped ++ '"' :: tail) ([], '"' :: tail)
  | [] => by
    refine .starNil ?_
    rw [ways, ways_seq_of_nil (ways_char_of_ends (by simp [Ends])),
      ways_char_of_ends (by simp [Ends])]
    rfl
  | c :: v => by
    have ih := first_inside v
    rw [List.flatMap_cons, List.append_assoc]
    have hpair : ∀ b : Char, isLineEnd b = false → First whole Cutter.inside
        ('\\' :: b :: (v.flatMap escaped ++ '"' :: tail)) ([], '"' :: tail) := by
      intro b hb
      have hone : First whole (.char (· == '\\')) ('\\' :: b :: (v.flatMap escaped ++ '"' :: tail))
          ([], b :: (v.flatMap escaped ++ '"' :: tail)) := .char rfl
      have htwo : First whole (.char fun c => !isLineEnd c)
        (b :: (v.flatMap escaped ++ '"' :: tail))
          ([], v.flatMap escaped ++ '"' :: tail) := .char (by simp [hb])
      exact (First.altLeft (hone.seq htwo)).starCons
        (by rw [List.length_cons, List.length_cons]; omega) ih
    unfold escaped
    split_ifs with h1 h2
    · exact hpair '\\' (by decide)
    · exact hpair '"' (by decide)
    · have hnil : ways whole (.seq (.char (· == '\\')) (.char fun c => !isLineEnd c))
          (c :: (v.flatMap escaped ++ '"' :: tail)) = [] :=
        ways_seq_of_nil (ways_char_of_ends (by simp [Ends, h1]))
      have hone : First whole (.char (· != '"')) (c :: (v.flatMap escaped ++ '"' :: tail))
          ([], v.flatMap escaped ++ '"' :: tail) := .char (by simp [h2])
      exact (First.altRight hnil hone).starCons (by simp) ih

theorem first_value {seg : Seg} (hseg : seg.Safe) (h : Tail tail d rest) :
    First whole Cutter.value (seg.rest ++ tail) (seg.groups, tail) := by
  cases seg with
  | plain k v =>
    refine .altLeft ?_
    have hv := hseg.value rfl
    have hequals : First whole (.char (· == '=')) ('=' :: (v ++ tail)) ([], v ++ tail) := .char rfl
    have hquote : Ends isQuote (v ++ tail) := by
      cases v with
      | nil => exact h.ends rfl rfl
      | cons c v => exact hv.2
    have hplain : First whole Cutter.plain (v ++ tail) ([(3, v)], tail) :=
      (first_chars hv.1 (h.ends rfl rfl)).group
    exact hequals.seq (First.altRight (ways_seq_of_nil (ways_char_of_ends hquote)) hplain)
  | quoted k v =>
    refine .altLeft ?_
    have htext : (Seg.quoted k v).rest ++ tail = '=' :: '"' :: (escape v ++ '"' :: tail) := by
      simp [Seg.rest]
    rw [htext]
    have hequals : First whole (.char (· == '=')) ('=' :: '"' :: (escape v ++ '"' :: tail))
        ([], '"' :: (escape v ++ '"' :: tail)) := .char rfl
    have hopen : First whole (.char isQuote) ('"' :: (escape v ++ '"' :: tail))
      ([], escape v ++ '"' :: tail) :=
      .char rfl
    have hclose : First whole (.char isQuote) ('"' :: tail) ([], tail) := .char rfl
    have hinside : First whole (.group 2 Cutter.inside) (escape v ++ '"' :: tail) ([(2, escape v)],
      '"' :: tail) := by
      refine First.group ?_
      rw [escape_eq]
      exact first_inside v
    exact hequals.seq (First.altLeft (hopen.seq (hinside.seq hclose)))
  | flag k =>
    exact .altRight (ways_seq_of_nil (ways_char_of_ends (h.ends rfl rfl))) .empty

/-- A piece is cut off with its name and its value, if its name ends where it should. -/
theorem first_cutter {seg : Seg} (hseg : seg.Safe) (h : Tail tail d rest)
    (hname : Ends isName (seg.rest ++ tail)) :
    First whole cutter (seg.text ++ tail) ((1, seg.key) :: (seg.groups ++ [(4, d)]), rest) := by
  have hk := hseg.key
  unfold Seg.text
  rw [List.append_assoc]
  have hlead : First whole Cutter.lead (seg.key ++ (seg.rest ++ tail))
    ([], seg.key ++ (seg.rest ++ tail)) :=
    first_lead (ends_append hk.ne hk.space) (ends_append hk.ne hk.delim)
  have hdollars : First whole Cutter.dollars (seg.key ++ (seg.rest ++ tail))
    ([], seg.key ++ (seg.rest ++ tail)) :=
    first_dollars (ends_append hk.ne hk.dollar)
  exact hlead.seq (hdollars.seq ((first_name hk hname).seq
    ((first_value hseg h).seq (first_delim h))))

/-- A piece with what is behind it, alone. -/
theorem piece_eq {seg : Seg} (hseg : seg.Safe) (h : Tail d d [])
    (hname : Ends isName (seg.rest ++ d)) :
    piece (seg.text ++ d) = some (seg.pair.1, seg.pair.2, d) := by
  have hfirst : First (seg.text ++ d) cutter (seg.text ++ d)
    ((1, seg.key) :: (seg.groups ++ [(4, d)]), []) :=
    first_cutter hseg h hname
  have hmatch := fullMatch_of_first hfirst
  unfold piece
  rw [hmatch]
  cases seg with
  | plain k v => rfl
  | quoted k v =>
    show some (k, some (unescape (escape v)), d) = _
    rw [unescape_escape]
    rfl
  | flag k => rfl

end Cutting

/-! ### Fields -/

/-- A name with what stands behind it; a date is cut at its comma. -/
inductive Field where
  | whole (seg : Seg)
  | dated (k day time : Text)

namespace Field

def key : Field → Text
  | whole seg => seg.key
  | dated k _ _ => k

def text : Field → Text
  | whole seg => seg.text
  | dated k day time => (Seg.plain k day).text ++ (',' :: ' ' :: time)

def pair : Field → Text × Option Text
  | whole seg => seg.pair
  | dated k day time => (k, some (day ++ (',' :: ' ' :: time)))

/-- What is found of a field with `d` behind it. -/
def pieces (d : Text) : Field → List Text
  | whole seg => [seg.text ++ d]
  | dated k day time => [(Seg.plain k day).text ++ [',', ' '], (Seg.flag time).text ++ d]

/-- A field that is read as one: a name alone is one of those that have no value,
and the time of a date is none. -/
inductive Safe : Field → Prop
  | whole {seg : Seg} (hseg : seg.Safe) (hflag : seg.pair.2 = none →
    KeyOnly.any (equalsIgnoreCase seg.key) = true) :
      Safe (whole seg)
  | dated {k day time : Text} (hday : (Seg.plain k day).Safe) (htime : (Seg.flag time).Safe)
      (hflag : KeyOnly.any (equalsIgnoreCase time) = false) : Safe (dated k day time)

end Field

section Fields

variable {all rest tail d : Text} {f : Field}

/-- What follows a field: nothing, or a semicolon and another field. -/
inductive After : Text → Text → Text → Prop
  | last : After [] [] []
  | next (rest : Text) (hspace : Ends isSpace rest) (hdelim : Ends isDelim rest) :
    After (';' :: rest) [';'] rest

theorem After.toTail (h : After tail d rest) : Tail tail d rest := by
  cases h with
  | last => exact .last
  | next rest hspace hdelim => exact .next rest hspace hdelim

/-- A name ends before what follows its field. -/
theorem After.ends_name (h : After tail d rest) (seg : Seg) : Ends isName (seg.rest ++ tail) := by
  cases seg with
  | plain k v => simp [Ends, Seg.rest, isName]
  | quoted k v => simp [Ends, Seg.rest, isName]
  | flag k =>
    cases h with
    | last => simp [Ends, Seg.rest]
    | next rest hspace hdelim => simp [Ends, Seg.rest, isName]

/-- The semicolon behind a piece alone. -/
theorem after_semicolon : After [';'] [';'] [] := .next [] (by simp [Ends]) (by simp [Ends])

/-- One piece after another. -/
theorem cut_seg {seg : Seg} {ws : List Text} (hseg : seg.Safe) (h : Tail tail d rest)
    (hname : Ends isName (seg.rest ++ tail)) (hrest : Cut all cutter rest ws) :
    Cut all cutter (seg.text ++ tail) ((seg.text ++ d) :: ws) := by
  have hfirst : First all cutter (seg.text ++ tail)
    ((1, seg.key) :: (seg.groups ++ [(4, d)]), rest) :=
    first_cutter hseg h hname
  rw [h.eq_append, ← List.append_assoc] at hfirst ⊢
  refine .cons ?_ hfirst hrest
  unfold Seg.text
  simp [hseg.key.ne]

/-- A field is cut off before what follows. -/
theorem cut_field {ws : List Text} (hf : f.Safe) (h : After tail d rest)
    (hrest : Cut all cutter rest ws) :
    Cut all cutter (f.text ++ tail) (f.pieces d ++ ws) := by
  cases hf with
  | @whole seg hseg hflag => exact cut_seg hseg h.toTail (h.ends_name seg) hrest
  | @dated k day time hday htime hflag =>
    have htail : Cut all cutter ((Seg.flag time).text ++ tail)
      (((Seg.flag time).text ++ d) :: ws) :=
      cut_seg htime h.toTail (h.ends_name (.flag time)) hrest
    have hspace : Ends isSpace ((Seg.flag time).text ++ tail) := by
      unfold Seg.text
      rw [List.append_assoc]
      exact ends_append htime.key.ne htime.key.space
    have hcut := cut_seg hday (.comma _ hspace) (by simp [Ends, Seg.rest, isName]) htail
    have htext : (Field.dated k day time).text ++ tail =
        (Seg.plain k day).text ++ (',' :: ' ' :: ((Seg.flag time).text ++ tail)) := by
      simp [Field.text, Seg.text, Seg.key, Seg.rest]
    rw [htext]
    exact hcut

theorem readPiece_value {seg : Seg} (hseg : seg.Safe) (hd : Tail d d [])
    (hname : Ends isName (seg.rest ++ d)) (hflag : seg.pair.2 = none →
      KeyOnly.any (equalsIgnoreCase seg.key) = true) (ps : List (Text × Option Text))
    (n0 : Text) (v0 : Option Text) (s0 : Text) :
    readPiece ⟨ps, some (n0, v0, s0)⟩ (seg.text ++ d) =
      .ok ⟨(n0, v0) :: ps, some (seg.pair.1, seg.pair.2, d)⟩ := by
  have hkey : seg.pair.1 = seg.key := by cases seg <;> rfl
  have hcond : ¬ (seg.pair.2 = none ∧ KeyOnly.any (equalsIgnoreCase seg.pair.1) = false) := by
    rintro ⟨hnone, hfalse⟩
    rw [hkey, hflag hnone] at hfalse
    cases hfalse
  unfold readPiece
  rw [piece_eq hseg hd hname]
  exact if_neg hcond

/-- A field is read after a name and a value that are complete by that. -/
theorem readPiece_field (hf : f.Safe) (h : After d d [])
    (ps : List (Text × Option Text)) (n0 : Text) (v0 : Option Text) (s0 : Text) :
    (f.pieces d).foldlM readPiece ⟨ps, some (n0, v0, s0)⟩ =
      .ok ⟨(n0, v0) :: ps, some (f.pair.1, f.pair.2, d)⟩ := by
  cases hf with
  | @whole seg hseg hflag =>
    show [seg.text ++ d].foldlM readPiece _ = _
    rw [List.foldlM_cons, readPiece_value hseg h.toTail (h.ends_name seg) hflag]
    rfl
  | @dated k day time hday htime hflag =>
    have hcomma : Tail [',', ' '] [',', ' '] [] := .comma [] (by simp [Ends])
    have hone := readPiece_value hday hcomma (by simp [Ends, Seg.rest, isName])
      (by intro h; cases h) ps n0 v0 s0
    have htwo : readPiece ⟨(n0, v0) :: ps, some (k, some day, [',', ' '])⟩
      ((Seg.flag time).text ++ d) =
        .ok ⟨(n0, v0) :: ps, some (k, some (day ++ [',', ' '] ++ time), d)⟩ := by
      unfold readPiece
      rw [piece_eq htime h.toTail (h.ends_name (.flag time))]
      exact if_pos ⟨rfl, hflag⟩
    show [(Seg.plain k day).text ++ [',', ' '], (Seg.flag time).text ++ d].foldlM readPiece _ = _
    rw [List.foldlM_cons, hone]
    show [(Seg.flag time).text ++ d].foldlM readPiece ⟨(n0, v0) :: ps,
      some (k, some day, [',', ' '])⟩ = _
    rw [List.foldlM_cons, htwo, List.append_assoc]
    rfl

/-- The fields with a semicolon between them. -/
def joined : List Field → Text
  | [] => []
  | [f] => f.text
  | f :: fs => f.text ++ ';' :: joined fs

/-- What is found of fields. -/
def pieces : List Field → List Text
  | [] => []
  | [f] => f.pieces []
  | f :: fs => f.pieces [';'] ++ pieces fs

theorem ends_joined {p : Char → Bool} {fs : List Field} (hk : f.key ≠ []) (h : Ends p f.key) :
    Ends p (joined (f :: fs)) := by
  have htext : Ends p f.text := by
    cases f with
    | whole seg => exact ends_append hk h
    | dated k day time =>
      show Ends p ((k ++ '=' :: day) ++ (',' :: ' ' :: time))
      rw [List.append_assoc]
      exact ends_append hk h
  have hne : f.text ≠ [] := by
    cases f with
    | whole seg => exact List.append_ne_nil_of_left_ne_nil hk _
    | dated k day time =>
      exact List.append_ne_nil_of_left_ne_nil (List.append_ne_nil_of_left_ne_nil hk _) _
  cases fs with
  | nil => exact htext
  | cons f' fs => exact ends_append hne htext

theorem Field.Safe.keySafe (hf : f.Safe) : KeySafe f.key := by
  cases hf with
  | whole hseg hflag => exact hseg.key
  | dated hday htime hflag => exact hday.key

theorem after_joined {fs : List Field} (hf : f.Safe) :
    After (';' :: joined (f :: fs)) [';'] (joined (f :: fs)) :=
  .next _ (ends_joined hf.keySafe.ne hf.keySafe.space) (ends_joined hf.keySafe.ne hf.keySafe.delim)

/-- Fields are cut where they were joined, and their dates. -/
theorem cut_joined : ∀ {fs : List Field}, (∀ f ∈ fs, f.Safe) →
    Cut all cutter (joined fs) (pieces fs)
  | [], _ => .nil rfl
  | [f], h => by
    have hcut : Cut all cutter (f.text ++ []) (f.pieces [] ++ []) :=
      cut_field (h f List.mem_cons_self) .last (.nil (find_cutter_eq_none.mpr (by simp)))
    rwa [List.append_nil, List.append_nil] at hcut
  | f :: f' :: fs, h => by
    have hsafe : ∀ x ∈ f' :: fs, x.Safe := fun x hx => h x (List.mem_cons_of_mem f hx)
    exact cut_field (h f List.mem_cons_self) (after_joined (hsafe f' List.mem_cons_self))
      (cut_joined hsafe)

/-- The fields after the first. -/
theorem foldlM_pieces : ∀ {fs : List Field}, (∀ f ∈ fs, f.Safe) → ∀ (ps : List (Text × Option Text))
    (n0 : Text) (v0 : Option Text) (s0 : Text), ∃ ps' n v s,
      (pieces fs).foldlM readPiece ⟨ps, some (n0, v0, s0)⟩ = .ok ⟨ps', some (n, v, s)⟩ ∧
        ((n, v) :: ps').reverse = ((n0, v0) :: ps).reverse ++ fs.map Field.pair
  | [], _, ps, n0, v0, s0 => ⟨ps, n0, v0, s0, rfl, by simp⟩
  | [f], h, ps, n0, v0, s0 =>
    ⟨(n0, v0) :: ps, f.pair.1, f.pair.2, [], readPiece_field (h f List.mem_cons_self) .last ps n0
      v0 s0, by simp⟩
  | f :: f' :: fs, h, ps, n0, v0, s0 => by
    have hsafe : ∀ x ∈ f' :: fs, x.Safe := fun x hx => h x (List.mem_cons_of_mem f hx)
    have hone := readPiece_field (h f List.mem_cons_self) after_semicolon ps n0 v0 s0
    obtain ⟨ps', n, v, s, hfold, hrev⟩ := foldlM_pieces hsafe ((n0, v0) :: ps) f.pair.1
      f.pair.2 [';']
    refine ⟨ps', n, v, s, ?_, ?_⟩
    · show (f.pieces [';'] ++ pieces (f' :: fs)).foldlM readPiece _ = _
      rw [List.foldlM_append, hone]
      exact hfold
    · rw [hrev]
      simp

/-- The first piece. -/
theorem readPiece_first {seg : Seg} (hseg : seg.Safe) (hvalue : seg.pair.2 ≠ none)
    (h : After d d []) :
    readPiece ⟨[], none⟩ (seg.text ++ d) = .ok ⟨[], some (seg.pair.1, seg.pair.2, d)⟩ := by
  have hpair : seg.pair.2 = some (seg.pair.2.getD []) := by
    obtain ⟨v, hv⟩ := Option.ne_none_iff_exists'.mp hvalue
    rw [hv]
    rfl
  unfold readPiece
  rw [piece_eq hseg h.toTail (h.ends_name seg)]
  show Except.ok (⟨[], some (seg.pair.1, some (seg.pair.2.getD []), d)⟩ : Reading) = _
  rw [← hpair]

/-- The names and values of fields are read, if the first is a value. -/
theorem readPairs_joined {seg : Seg} {fs : List Field} (hseg : seg.Safe)
    (hvalue : seg.pair.2 ≠ none) (h : ∀ f ∈ fs, f.Safe) :
    readPairs (joined (.whole seg :: fs)) = .ok (seg.pair :: fs.map Field.pair) := by
  have hsafe : ∀ f ∈ Field.whole seg :: fs, f.Safe := by
    intro f hf
    rcases List.mem_cons.mp hf with rfl | hf
    · exact .whole hseg fun hnone => absurd hnone hvalue
    · exact h f hf
  unfold readPairs
  rw [(cut_joined hsafe).findAllIn]
  cases fs with
  | nil =>
    have hall : (pieces [.whole seg]).foldlM readPiece ⟨[], none⟩ =
      .ok ⟨[], some (seg.pair.1, seg.pair.2, [])⟩ := by
      show [seg.text ++ []].foldlM readPiece _ = _
      rw [List.foldlM_cons, readPiece_first hseg hvalue .last]
      rfl
    rw [hall]
    rfl
  | cons f fs =>
    obtain ⟨ps', n, v, s, hfold, hrev⟩ := foldlM_pieces h [] seg.pair.1 seg.pair.2 [';']
    have hall : (pieces (.whole seg :: f :: fs)).foldlM readPiece ⟨[], none⟩ =
      .ok ⟨ps', some (n, v, s)⟩ := by
      show ([seg.text ++ [';']] ++ pieces (f :: fs)).foldlM readPiece _ = _
      rw [List.singleton_append, List.foldlM_cons, readPiece_first hseg hvalue after_semicolon]
      exact hfold
    rw [hall]
    show Except.ok ((n, v) :: ps').reverse = _
    rw [hrev]
    rfl

end Fields

/-! ### Attributes -/

section Attributes

variable {format : ℤ → Text} {parseDate : Text → Option ℤ} {now later : ℤ} {t t₁ t₂ k v : Text}
  {f f₁ f₂ : Cookie → Cookie}

/-- A text of fields that do to the cookie before them what `f` does. -/
def Writes (parseDate : Text → Option ℤ) (later : ℤ) (t : Text) (f : Cookie → Cookie) : Prop :=
  ∃ fs : List Field, t = (fs.flatMap fun x => x.text ++ [';']) ∧ (∀ x ∈ fs, x.Safe) ∧
    ∀ (cookie : Cookie) (rest : List (Text × Option Text)),
      bake parseDate later (some cookie) (fs.map Field.pair ++ rest) =
        bake parseDate later (some (f cookie)) rest

theorem Writes.nil : Writes parseDate later [] id := ⟨[], rfl, by simp, fun cookie rest => rfl⟩

theorem Writes.append (h₁ : Writes parseDate later t₁ f₁) (h₂ : Writes parseDate later t₂ f₂) :
    Writes parseDate later (t₁ ++ t₂) (fun cookie => f₂ (f₁ cookie)) := by
  obtain ⟨fs₁, rfl, hsafe₁, hbake₁⟩ := h₁
  obtain ⟨fs₂, rfl, hsafe₂, hbake₂⟩ := h₂
  refine ⟨fs₁ ++ fs₂, List.flatMap_append.symm, fun x hx => ?_, fun cookie rest => ?_⟩
  · rcases List.mem_append.mp hx with hx | hx
    · exact hsafe₁ x hx
    · exact hsafe₂ x hx
  · rw [List.map_append, List.append_assoc, hbake₁, hbake₂]

/-- One field, which is an attribute. -/
theorem writes_field {x : Field} (hx : x.Safe)
    (hf : ∀ cookie, absorb parseDate later cookie x.pair.1 x.pair.2 = some (f cookie)) :
    Writes parseDate later (x.text ++ [';']) f := by
  refine ⟨[x], by simp, by simpa using hx, fun cookie rest => ?_⟩
  show bake parseDate later (some cookie) ((x.pair.1, x.pair.2) :: rest) = _
  rw [bake, hf]

/-- Keys are names that are cut off as they are. -/
theorem keySafe_of_mem : ∀ k ∈ [Path, Expires, MaxAge, Domain, Secure, HTTPOnly, Version],
    KeySafe k := by
  have hends : ∀ {p : Char → Bool} {k : Text}, k.head?.all (fun c => !p c) = true → Ends p k := by
    intro p k h c hc
    rw [Option.mem_def] at hc
    simpa [hc] using h
  intro k hk
  simp only [List.mem_cons, List.not_mem_nil, or_false] at hk
  rcases hk with rfl | rfl | rfl | rfl | rfl | rfl | rfl
  all_goals exact ⟨List.cons_ne_nil _ _, List.all_eq_true.mp rfl, hends rfl, hends rfl, hends rfl⟩

/-- A value that `literal` writes so that it is read. -/
structure Plain (v : Text) : Prop where
  plain : ∀ c ∈ v, isPlain c = true
  quote : Ends isQuote v

/-- A value that `add` writes so that it is read: `'` at its beginning is a quote,
if the value is not quoted. -/
def Addable (v : Text) : Prop := v.any (quotables.contains ·) = false → v.head? ≠ some '\''

theorem Addable.plain (h : Addable v) (hv : v.any (quotables.contains ·) = false) : Plain v := by
  have hnot : ∀ c ∈ v, quotables.contains c = false := by
    intro c hc
    rw [← Bool.not_eq_true]
    exact fun hq => absurd (hv.symm.trans (List.any_eq_true.mpr ⟨c, hc, hq⟩)) Bool.false_ne_true
  refine ⟨fun c hc => ?_, fun c hc => ?_⟩
  · have hne : ∀ q ∈ quotables, c ≠ q := by
      rintro q hq rfl
      exact absurd ((hnot c hc).symm.trans (List.contains_iff_mem.mpr hq)) Bool.false_ne_true
    simp [isPlain, hne ';' (by decide), hne ',' (by decide)]
  · have hmem : c ∈ v := List.mem_of_head? hc
    have hquote : c ≠ '"' := by
      rintro rfl
      exact absurd (hnot '"' hmem) (by decide)
    have happos : c ≠ '\'' := by
      rintro rfl
      exact h hv hc
    simp [isQuote, hquote, happos]

/-- What `add` writes. -/
def added (k v : Text) : Seg := if v.any (quotables.contains ·) then .quoted k v else .plain k v

theorem added_text (k v : Text) : add k v = (added k v).text ++ [';'] := by
  unfold add added
  split_ifs
  · simp [Cookies.quoted, Seg.text, Seg.key, Seg.rest]
  · simp [literal, Seg.text, Seg.key, Seg.rest]

theorem added_pair (k v : Text) : (added k v).pair = (k, some v) := by
  unfold added
  split_ifs <;> rfl

theorem added_safe (hk : KeySafe k) (hv : Addable v) : (added k v).Safe := by
  unfold added
  split_ifs with h
  · exact ⟨hk, by intro k v heq; cases heq⟩
  · refine ⟨hk, fun heq => ?_⟩
    obtain ⟨rfl, rfl⟩ := Seg.plain.inj heq
    have hplain := hv.plain (Bool.not_eq_true _ ▸ h)
    exact ⟨hplain.plain, hplain.quote⟩

/-- An attribute that `add` writes. -/
theorem writes_add (hk : KeySafe k) (hv : Addable v)
    (hf : ∀ cookie, absorb parseDate later cookie k (some v) = some (f cookie)) :
    Writes parseDate later (add k v) f := by
  have hsafe : (Field.whole (added k v)).Safe := .whole (added_safe hk hv) fun hnone => by
    rw [added_pair] at hnone
    cases hnone
  rw [added_text]
  refine writes_field hsafe fun cookie => ?_
  show absorb parseDate later cookie (added k v).pair.1 (added k v).pair.2 = _
  rw [added_pair]
  exact hf cookie

/-- An attribute that `literal` writes. -/
theorem writes_literal (hk : KeySafe k) (hv : Plain v)
    (hf : ∀ cookie, absorb parseDate later cookie k (some v) = some (f cookie)) :
    Writes parseDate later (literal k v) f := by
  have hseg : (Seg.plain k v).Safe := ⟨hk, fun heq => by
    obtain ⟨rfl, rfl⟩ := Seg.plain.inj heq
    exact ⟨hv.plain, hv.quote⟩⟩
  have htext : literal k v = (Seg.plain k v).text ++ [';'] := by
    simp [literal, Seg.text, Seg.key, Seg.rest]
  rw [htext]
  exact writes_field (x := .whole (.plain k v)) (.whole hseg (by intro hnone; cases hnone)) hf

/-- A name alone. -/
theorem writes_flag (hk : KeySafe k) (hflag : KeyOnly.any (equalsIgnoreCase k) = true)
    (hf : ∀ cookie, absorb parseDate later cookie k none = some (f cookie)) :
    Writes parseDate later (k ++ [';']) f := by
  have hseg : (Seg.flag k).Safe := ⟨hk, by intro k v heq; cases heq⟩
  have htext : k = (Seg.flag k).text := (List.append_nil k).symm
  have h := writes_field (x := .whole (.flag k)) (.whole hseg fun _ => hflag) hf
  show Writes parseDate later (k ++ [';']) f
  rw [show k ++ [';'] = (Seg.flag k).text ++ [';'] by rw [← htext]]
  exact h

/-- What `E, dd MMM yyyy HH:mm:ss z` makes: letters, a comma with a blank,
and what begins with a digit. -/
def IsDate (t : Text) : Prop :=
  ∃ day time, t = day ++ (',' :: ' ' :: time) ∧ (∀ c ∈ day, c.isAlpha = true) ∧
    (∃ c ∈ time.head?, c.isDigit = true) ∧ ∀ c ∈ time, isName c = true

theorem foldCase_of_isDigit {c : Char} (h : c.isDigit = true) : foldCase c = c := by
  have hne : ∀ d : Char, d.isDigit = false → c ≠ d := by
    rintro d hd rfl
    rw [h] at hd
    cases hd
  unfold foldCase
  rw [if_neg (by simp [hne 'ı' (by decide), hne 'İ' (by decide)]), if_neg (hne _ (by decide)),
    if_neg (hne _ (by decide))]
  unfold Char.toLower
  refine dif_neg fun hupper => ?_
  simp only [Char.isDigit, Bool.and_eq_true, decide_eq_true_eq] at h
  exact absurd (UInt32.le_trans hupper.1 h.2) (by decide)

/-- The time of a date is no key. -/
theorem keyOnly_of_isDigit {c : Char} {time : Text} (h : c.isDigit = true) :
    KeyOnly.any (equalsIgnoreCase (c :: time)) = false := by
  have hne : ∀ k ∈ KeyOnly, equalsIgnoreCase (c :: time) k = false := by
    intro k hk
    have hhead : (k.map foldCase).head?.all (fun d => !d.isDigit) = true := by
      simp only [KeyOnly, List.mem_cons, List.not_mem_nil, or_false] at hk
      rcases hk with rfl | rfl | rfl
      all_goals rfl
    unfold equalsIgnoreCase
    rw [beq_eq_false_iff_ne]
    intro heq
    rw [← heq, List.map_cons, List.head?_cons, foldCase_of_isDigit h] at hhead
    simp [h] at hhead
  rw [List.any_eq_false]
  exact fun k hk => by rw [hne k hk]; exact Bool.false_ne_true

/-- A date behind `Expires`. -/
theorem writes_date (ht : IsDate t)
    (hf : ∀ cookie, absorb parseDate later cookie Expires (some t) = some (f cookie)) :
    Writes parseDate later (literal Expires t) f := by
  obtain ⟨day, time, rfl, hday, ⟨c, hc, hdigit⟩, htime⟩ := ht
  have hdaySafe : (Seg.plain Expires day).Safe := by
    refine ⟨keySafe_of_mem Expires (by simp), fun heq => ?_⟩
    obtain ⟨-, rfl⟩ := Seg.plain.inj heq
    have hne : ∀ c ∈ day, ∀ d : Char, d.isAlpha = false → c ≠ d := by
      rintro c hc d hd rfl
      rw [hday c hc] at hd
      cases hd
    refine ⟨fun c hc => ?_, fun c hc => ?_⟩
    · simp [isPlain, hne c hc ';' (by decide), hne c hc ',' (by decide)]
    · have hc := List.mem_of_head? hc
      simp [isQuote, hne c hc '"' (by decide), hne c hc '\'' (by decide)]
  obtain ⟨time, rfl⟩ : ∃ time', time = c :: time' := List.head?_eq_some_iff.mp hc
  have htimeSafe : (Seg.flag (c :: time)).Safe := by
    have hne : ∀ p : Char → Bool, (∀ d : Char, d.isDigit = true → p d = false) →
      Ends p (c :: time) := by
      intro p hp d hd
      obtain rfl := Option.some.inj hd
      exact hp _ hdigit
    have hother : ∀ {d e : Char}, d.isDigit = true → e.isDigit = false → (d == e) = false := by
      intro d e hd he
      rw [beq_eq_false_iff_ne]
      rintro rfl
      rw [hd] at he
      cases he
    refine ⟨⟨List.cons_ne_nil c time, htime, hne _ fun d hd => ?_, hne _ fun d hd => ?_,
      hne _ fun d hd => ?_⟩,
      by intro k v heq; cases heq⟩
    · unfold isSpace
      simp only [hother hd (e := ' ') (by decide), hother hd (e := '\t') (by decide),
        hother hd (e := '\x0b') (by decide), hother hd (e := '\x0c') (by decide),
        hother hd (e := '\n') (by decide), hother hd (e := '\r') (by decide), Bool.or_false]
    · unfold isDelim
      simp only [hother hd (e := ';') (by decide), hother hd (e := ',') (by decide), Bool.or_false]
    · exact hother hd (by decide)
  have hflag : KeyOnly.any (equalsIgnoreCase (c :: time)) = false := keyOnly_of_isDigit hdigit
  have htext : literal Expires (day ++ (',' :: ' ' :: c :: time)) =
      (Field.dated Expires day (c :: time)).text ++ [';'] := by
    simp [literal, Field.text, Seg.text, Seg.key, Seg.rest]
  rw [htext]
  exact writes_field (.dated hdaySafe htimeSafe hflag) hf

end Attributes

/-! ### Cookies -/

section Cookies

variable {format : ℤ → Text} {parseDate : Text → Option ℤ} {now later : ℤ}

/-- The names of attributes. -/
def keys : List Text :=
  [Discard, Secure, HTTPOnly, Comment, CommentURL, Domain, Path, Expires, MaxAge, Version, Port]

/-- A cookie that can be read from what is written of it. -/
structure Good (c : Cookie) : Prop where
  name : KeySafe c.name
  key : ∀ k ∈ keys, toLowerCase c.name ≠ toLowerCase k
  first : equalsIgnoreCase c.name Version = false
  value : Addable c.value
  maxAge : ∀ ma ∈ c.maxAge, -2 ^ 31 ≤ ma ∧ ma < 2 ^ 31
  path : ∀ p ∈ c.path, if c.version > 0 then Addable p else Plain p
  domain : ∀ d ∈ c.domain, if c.version > 0 then Addable d else Plain d
  secure : c.secure ≠ some false
  version : 0 ≤ c.version ∧ c.version < 2 ^ 31

/-- The dates of a cookie are written and parsed, to the second. -/
def DatesOk (format : ℤ → Text) (parseDate : Text → Option ℤ) (now : ℤ) (c : Cookie) : Prop :=
  c.version = 0 → ∀ ma ∈ c.maxAge, IsDate (format (now + ma * 1000)) ∧
    parseDate (format (now + ma * 1000)) = some ((now + ma * 1000) / 1000 * 1000)

/-- A cookie with its age counted from `later`, if it was written with its expiry date. -/
def aged (now later : ℤ) (c : Cookie) : Cookie :=
  if c.version = 0 then
    { c with maxAge := c.maxAge.map fun ma => max 0 (ma - (later / 1000 - now / 1000)) }
  else c

/-- The full seconds between writing and reading are taken off. -/
theorem expiry_eq {t : Text} {ma : ℤ} (hle : now ≤ later) (hma : ma < 2 ^ 31)
    (ht : parseDate t = some ((now + ma * 1000) / 1000 * 1000)) :
    expiry parseDate later (some t) = some (max 0 (ma - (later / 1000 - now / 1000))) := by
  unfold expiry
  rw [Option.bind_some, ht]
  dsimp only
  have hdiv : (now + ma * 1000) / 1000 = now / 1000 + ma := by omega
  rw [hdiv]
  by_cases hlt : (now / 1000 + ma) * 1000 - later < 1
  · rw [if_pos hlt]
    congr 1
    omega
  · rw [if_neg hlt]
    congr 1
    obtain ⟨secs, hsecs⟩ : ∃ secs, ((now / 1000 + ma) * 1000 - later) / 1000 = secs := ⟨_, rfl⟩
    rw [hsecs]
    by_cases hmod : ((now / 1000 + ma) * 1000 - later) % 1000 = 0
    · have hzero : BitVec.ofInt 32 secs + 0 = BitVec.ofInt 32 secs := BitVec.add_zero _
      rw [if_neg (not_not.mpr hmod), hzero, BitVec.toInt_ofInt,
        Int.bmod_eq_of_le (by omega) (by omega)]
      omega
    · have hone : BitVec.ofInt 32 secs + 1 = BitVec.ofInt 32 (secs + 1) :=
        (BitVec.ofInt_add secs 1).symm
      rw [if_pos hmod, hone, BitVec.toInt_ofInt, Int.bmod_eq_of_le (by omega) (by omega)]
      omega

theorem addable_toString (i : ℤ) : Addable (toString i).toList := by
  intro _ h
  have hmem : '\'' ∈ (toString i).toList := List.mem_of_head? h
  rcases mem_toString hmem with h | h
  · exact absurd h (by decide)
  · exact absurd h (by decide)

/-- How the age of a cookie is written. -/
def ageText (format : ℤ → Text) (now : ℤ) (c : Cookie) : Text :=
  match c.maxAge with
  | none => []
  | some ma => if c.version = 0 then literal Expires (gmt format now ma)
    else add MaxAge (toString ma).toList

/-- How its path and its domain are written. -/
def optionalText (c : Cookie) (k : Text) : Option Text → Text
  | none => []
  | some v => if c.version > 0 then add k v else literal k v

/-- What stands behind the name and the value of a cookie. -/
def attributes (format : ℤ → Text) (now : ℤ) (c : Cookie) : Text :=
  ageText format now c ++ (optionalText c Path c.path ++ (optionalText c Domain c.domain ++
    ((if c.secure = some true then Secure ++ [';'] else []) ++
      ((if c.httpOnly = true then HTTPOnly ++ [';'] else []) ++
    (if c.version > 0 then add Version (toString c.version).toList else [])))))

theorem append_eq (c : Cookie) :
    Cookies.append format now c = add c.name c.value ++ attributes format now c := by
  have hassoc : ∀ t₁ t₂ t₃ t₄ t₅ t₆ t₇ : Text, t₁ ++ t₂ ++ t₃ ++ t₄ ++ t₅ ++ t₆ ++ t₇ =
      t₁ ++ (t₂ ++ (t₃ ++ (t₄ ++ (t₅ ++ (t₆ ++ t₇))))) := by
    intro t₁ t₂ t₃ t₄ t₅ t₆ t₇
    simp only [List.append_assoc]
  exact hassoc _ _ _ _ _ _ _

theorem writes_maxAge {c : Cookie} (hgood : Good c) (hdates : DatesOk format parseDate now c)
    (hle : now ≤ later) :
    Writes parseDate later (ageText format now c) fun cookie =>
      (aged now later c).maxAge.elim cookie fun ma => { cookie with maxAge := some ma } := by
  have haged : (aged now later c).maxAge = if c.version = 0 then
      c.maxAge.map fun ma => max 0 (ma - (later / 1000 - now / 1000)) else c.maxAge := by
    unfold aged
    split_ifs <;> rfl
  rw [haged]
  unfold ageText
  rcases hma : c.maxAge with _ | ma
  · simp only [Option.map_none, ite_self]
    exact .nil
  · have hrange := hgood.maxAge ma (by rw [hma]; rfl)
    by_cases hv : c.version = 0
    · simp only [if_pos hv, Option.map_some]
      obtain ⟨hdate, hparse⟩ := hdates hv ma (by rw [hma]; rfl)
      refine writes_date hdate fun cookie => ?_
      have hexpires : ∀ v secs, expiry parseDate later v = some secs →
          absorb parseDate later cookie Expires v = some { cookie with maxAge := some secs } := by
        intro v secs hsecs
        unfold absorb
        rw [hsecs]
        rfl
      exact hexpires _ _ (expiry_eq hle hrange.2 hparse)
    · simp only [if_neg hv]
      have habsorb : ∀ cookie v secs, (v.bind fun v => parseInt (String.ofList v)) = some secs →
          absorb parseDate later cookie MaxAge v = some { cookie with maxAge := some secs } := by
        intro cookie v secs hsecs
        unfold absorb
        rw [hsecs]
        rfl
      refine writes_add (keySafe_of_mem MaxAge (by simp)) (addable_toString ma) fun cookie => ?_
      exact habsorb _ _ _ (by rw [Option.bind_some, String.ofList_toList,
        parseInt_toString hrange.1 hrange.2])

/-- An attribute with a value that is quoted from version 1 on. -/
theorem writes_optional {c : Cookie} {k : Text} {v : Option Text} {g : Text → Cookie → Cookie}
    (hk : KeySafe k) (hv : ∀ x ∈ v, if c.version > 0 then Addable x else Plain x)
    (hg : ∀ cookie x, absorb parseDate later cookie k (some x) = some (g x cookie)) :
    Writes parseDate later (optionalText c k v) fun cookie => v.elim cookie fun x =>
      g x cookie := by
  rcases v with _ | x
  · exact .nil
  · have hx := hv x rfl
    show Writes parseDate later (if c.version > 0 then add k x else literal k x) fun cookie =>
      g x cookie
    by_cases hversion : c.version > 0
    · rw [if_pos hversion] at hx ⊢
      exact writes_add hk hx fun cookie => hg cookie x
    · rw [if_neg hversion] at hx ⊢
      exact writes_literal hk hx fun cookie => hg cookie x

theorem writes_if {b : Prop} [Decidable b] {t : Text} {f : Cookie → Cookie}
    (h : b → Writes parseDate later t f) :
    Writes parseDate later (if b then t else []) fun cookie => if b then f cookie else cookie := by
  by_cases hb : b
  · simp only [if_pos hb]
    exact h hb
  · simp only [if_neg hb]
    exact .nil

theorem writes_version {c : Cookie} (hgood : Good c) :
    Writes parseDate later (add Version (toString c.version).toList)
      fun cookie => { cookie with version := c.version } := by
  refine writes_add (keySafe_of_mem Version (by simp)) (addable_toString c.version) fun cookie => ?_
  have habsorb : ∀ v version, (v.bind fun v => parseInt (String.ofList v)) = some version →
      absorb parseDate later cookie Version v = some { cookie with version := version } := by
    intro v version hversion
    unfold absorb
    rw [hversion]
    rfl
  have hrange := hgood.version
  exact habsorb _ _ (by rw [Option.bind_some, String.ofList_toList,
    parseInt_toString (by omega) hrange.2])

/-- The attributes of a cookie are read to the cookie that has its name and its value. -/
theorem writes_attributes {c : Cookie} (hgood : Good c) (hdates : DatesOk format parseDate now c)
    (hle : now ≤ later) :
    ∃ f, Writes parseDate later (attributes format now c) f ∧ f (.plain c.name c.value) =
      aged now later c := by
  have hpath : Writes parseDate later _ _ := writes_optional (c := c)
    (g := fun v cookie => { cookie with path := some v }) (keySafe_of_mem Path (by simp)) hgood.path
    fun _ _ => rfl
  have hdomain : Writes parseDate later _ _ := writes_optional (c := c)
    (g := fun v cookie => { cookie with domain := some v })
    (keySafe_of_mem Domain (by simp)) hgood.domain
    fun _ _ => rfl
  have hsecure : Writes parseDate later _ _ := writes_if (b := c.secure = some true) fun _ =>
    writes_flag (f := fun cookie => { cookie with secure := some true })
      (keySafe_of_mem Secure (by simp)) (by decide)
      fun cookie => rfl
  have hhttpOnly : Writes parseDate later _ _ := writes_if (b := c.httpOnly = true) fun _ =>
    writes_flag (f := fun cookie => { cookie with httpOnly := true })
      (keySafe_of_mem HTTPOnly (by simp)) (by decide)
      fun cookie => rfl
  have hversion : Writes parseDate later _ _ :=
    writes_if (b := c.version > 0) fun _ => writes_version hgood
  refine ⟨_, (writes_maxAge hgood hdates hle).append (hpath.append (hdomain.append (hsecure.append
    (hhttpOnly.append hversion)))), ?_⟩
  have haged : aged now later c = { c with maxAge := (aged now later c).maxAge } := by
    unfold aged
    split_ifs <;> rfl
  rw [haged]
  generalize (aged now later c).maxAge = maxAge
  have hsecure := hgood.secure
  have hversion := hgood.version
  obtain ⟨name, value, domain, path, maxAge', secure, httpOnly, version⟩ := c
  dsimp only at hsecure hversion ⊢
  have hsome : secure = none ∨ secure = some true := by
    rcases secure with _ | _ | _
    · exact .inl rfl
    · exact absurd rfl hsecure
    · exact .inr rfl
  have hzero : ¬ version > 0 → version = 0 := fun h => by omega
  rcases hsome with rfl | rfl
  · cases maxAge <;> cases path <;> cases domain <;> cases httpOnly <;>
      by_cases hv : version > 0 <;>
      simp [Cookie.plain, hv, hzero]
  · cases maxAge <;> cases path <;> cases domain <;> cases httpOnly <;>
      by_cases hv : version > 0 <;>
      simp [Cookie.plain, hv, hzero]

/-- A name that is no attribute begins another cookie. -/
theorem absorb_name {c : Cookie} (hgood : Good c) (cookie : Cookie) (v : Option Text) :
    absorb parseDate later cookie c.name v = none := by
  have hkey : ∀ k ∈ keys, ¬ toLowerCase c.name = toLowerCase k := hgood.key
  unfold absorb
  dsimp only
  rw [if_neg (hkey Discard (by simp [keys])), if_neg (hkey Secure (by simp [keys])),
    if_neg (hkey HTTPOnly (by simp [keys])), if_neg (hkey Comment (by simp [keys])),
    if_neg (hkey CommentURL (by simp [keys])), if_neg (hkey Domain (by simp [keys])),
    if_neg (hkey Path (by simp [keys])), if_neg (hkey Expires (by simp [keys])),
    if_neg (hkey MaxAge (by simp [keys])), if_neg (hkey Version (by simp [keys])),
    if_neg (hkey Port (by simp [keys]))]

/-- One cookie: its name with its value, and the fields behind. -/
theorem exists_attributes {c : Cookie} (hgood : Good c) (hdates : DatesOk format parseDate now c)
    (hle : now ≤ later) :
    ∃ fs : List Field,
      Cookies.append format now c = ((.whole (added c.name c.value) :: fs).flatMap fun x =>
        x.text ++ [';']) ∧
      (∀ x ∈ fs, x.Safe) ∧ ∀ rest, bake parseDate later (some (.plain c.name c.value))
      (fs.map Field.pair ++ rest) =
        bake parseDate later (some (aged now later c)) rest := by
  obtain ⟨f, ⟨fs, htext, hsafe, hbake⟩, hf⟩ := writes_attributes hgood hdates hle
  refine ⟨fs, ?_, hsafe, fun rest => ?_⟩
  · rw [append_eq, added_text, htext, List.flatMap_cons]
    rfl
  · rw [hbake, hf]

/-- Cookies after another. -/
theorem exists_fields (hle : now ≤ later) : ∀ {cs : List Cookie}, (∀ c ∈ cs, Good c) →
    (∀ c ∈ cs, DatesOk format parseDate now c) → ∃ fs : List Field,
      (cs.flatMap (Cookies.append format now)) = (fs.flatMap fun x => x.text ++ [';']) ∧
      (∀ x ∈ fs, x.Safe) ∧
        ∀ cookie, bake parseDate later (some cookie) (fs.map Field.pair) =
          cookie :: cs.map (aged now later)
  | [], _, _ => ⟨[], rfl, by simp, fun cookie => rfl⟩
  | c :: cs, hgood, hdates => by
    have hc := hgood c List.mem_cons_self
    obtain ⟨fs₁, htext₁, hsafe₁, hbake₁⟩ := exists_attributes hc (hdates c List.mem_cons_self) hle
    obtain ⟨fs₂, htext₂, hsafe₂, hbake₂⟩ :=
      exists_fields hle (fun x hx => hgood x (List.mem_cons_of_mem c hx))
      fun x hx => hdates x (List.mem_cons_of_mem c hx)
    refine ⟨.whole (added c.name c.value) :: fs₁ ++ fs₂, ?_, fun x hx => ?_, fun cookie => ?_⟩
    · rw [List.flatMap_cons, htext₁, htext₂, List.flatMap_append]
    · rcases List.mem_append.mp hx with hx | hx
      · rcases List.mem_cons.mp hx with rfl | hx
        · exact .whole (added_safe hc.name hc.value) fun hnone => by
            rw [added_pair] at hnone
            cases hnone
        · exact hsafe₁ x hx
      · exact hsafe₂ x hx
    · show bake parseDate later (some cookie) ((added c.name c.value).pair ::
        (fs₁ ++ fs₂).map Field.pair) = _
      rw [added_pair, bake, absorb_name hc]
      show cookie :: bake parseDate later (some (.plain c.name c.value))
        ((fs₁ ++ fs₂).map Field.pair) = _
      rw [List.map_append, hbake₁, hbake₂]
      rfl

/-- Without the last semicolon, fields are joined. -/
theorem dropLast_flatMap : ∀ (f : Field) (fs : List Field),
    ((f :: fs).flatMap fun x => x.text ++ [';']).dropLast = joined (f :: fs)
  | f, [] => by
    rw [List.flatMap_cons, List.flatMap_nil, List.append_nil, List.dropLast_concat]
    rfl
  | f, f' :: fs => by
    have hne : ((f' :: fs).flatMap fun x => x.text ++ [';']) ≠ [] := by simp
    rw [List.flatMap_cons, List.dropLast_append_of_ne_nil hne, dropLast_flatMap f' fs,
      List.append_assoc]
    rfl

end Cookies

end ServeD.Web.CookieTrips
