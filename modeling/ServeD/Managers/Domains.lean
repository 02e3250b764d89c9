import ServeD.Lib.Regexes
import ServeD.Managers.WebApi

/-! # Validating domains

`SvdConfig.matcherFQDN`, and what `validateDomain` hands on to the name resolution. The dot in the
repeated group of the pattern is optional, so the matcher can cut a label anywhere
(`mem_rests_chunk`): the bound of 63 characters holds for the pieces only, and the two letters at
the end may be the end of any label.

* `matches_iff`: the names that the pattern accepts, label by label;
* `validates_iff`: which of them are fully qualified names. -/

namespace ServeD.Managers.Domains

open ServeD.Lib.Texts ServeD.Lib.Regexes ServeD.Managers.WebApi
open ServeD.Lib.Patterns (isLineEnd)

/-! ### The pattern -/

def isLetter (c : Char) : Bool := c.isAlpha

/-- `[a-zA-Z0-9_\-]` -/
def isLabelChar (c : Char) : Bool := c.isAlphanum || c == '_' || c == '-'

def isDot (c : Char) : Bool := c == '.'

/-- `(?!\d+\.)` -/
def notNumeric : Regex := .notAhead (.seq (.rep (.char Char.isDigit) 1 none) (.char isDot))

/-- `[a-zA-Z0-9_\-]{1,63}\.?` -/
def block : Regex := .seq (.rep (.char isLabelChar) 1 (some 63)) (.rep (.char isDot) 0 (some 1))

/-- `(?!\d+\.)[a-zA-Z0-9_\-]{1,63}\.?` -/
def chunk : Regex := .seq notNumeric block

/-- `(?=^.{1,254}$)` -/
def lengthCheck : Regex :=
  .ahead (.seq .start (.seq (.rep (.char fun c => !isLineEnd c) 1 (some 254)) .stop))

/-- `(?=^.{1,254}$)(^(?:(?!\d+\.)[a-zA-Z0-9_\-]{1,63}\.?)+(?:[a-zA-Z]{2,})$)` -/
def matcherFQDN : Regex :=
  .seq lengthCheck (.seq .start (.seq (.rep chunk 1 none)
    (.seq (.rep (.char isLetter) 2 none) .stop)))

/-- `validateDomain`, with the names it asks `InetAddress.getByName` for. -/
def validate (getByName : Text → Lookup) (domain : Text) : Option Text × List Text :=
  if domain = [] then (validateDomain domain .notQualified, [])
  else if matchesAll matcherFQDN domain then (validateDomain domain (getByName domain), [domain])
  else (validateDomain domain .notQualified, [])

/-! ### Names -/

/-- The labels between the dots. -/
def labels (domain : Text) : List Text := domain.splitOn '.'

/-- Properties of all labels but the last one, and of the last one. -/
def Each (inner last : Text → Prop) : List Text → Prop
  | [] => False
  | [label] => last label
  | label :: next :: rest => inner label ∧ Each inner last (next :: rest)

def IsLabel (label : Text) : Prop := label ≠ [] ∧ ∀ c ∈ label, isLabelChar c = true

/-- **A fully qualified name.** -/
structure FQDN (domain : Text) : Prop where
  length : domain.length ≤ 254
  several : 2 ≤ (labels domain).length
  labels : Each
    (fun label => IsLabel label ∧ label.length ≤ 63 ∧ ¬ ∀ c ∈ label, c.isDigit = true)
    (fun label => label.length ≤ 63 ∧ 2 ≤ label.length ∧ ∀ c ∈ label, isLetter c = true)
      (labels domain)

/-- One of the last 63 characters is not a digit. -/
def Fits (label : Text) : Prop := ∃ u c ds, label = u ++ c :: ds ∧ c.isDigit = false ∧
    ds.length ≤ 62

def EndsInLetters (label : Text) : Prop := ∃ u a b, label = u ++ [a, b] ∧ isLetter a = true ∧
    isLetter b = true

/-- What is left to match when some of a name has been taken. -/
def Remains (s : Text) : Prop :=
  Each (fun label => IsLabel label ∧ Fits label) (fun label => IsLabel label ∧
    EndsInLetters label) (labels s)

/-- A name that the pattern accepts: its labels may have any length, and the last one any characters
before two letters. -/
structure Accepted (domain : Text) : Prop where
  length : domain.length ≤ 254
  long : 3 ≤ domain.length
  labels : Remains domain

/-- There are several labels, of at most 63 characters, the last of them of letters. -/
def Strict (domain : Text) : Prop :=
  2 ≤ (labels domain).length ∧ (∀ label ∈ labels domain, label.length ≤ 63) ∧
    ∀ label ∈ (labels domain).getLast?, ∀ c ∈ label, isLetter c = true

/-- **Exactly fully qualified names are accepted, and no other name is handed on.** -/
structure Validates (domain : Text) : Prop where
  fqdn : matchesAll matcherFQDN domain = true ↔ FQDN domain
  asked : ∀ getByName, ∀ name ∈ (validate getByName domain).2,
    2 ≤ (labels name).length ∧ ∀ label ∈ labels name, label.length ≤ 63
  registered : ∀ getByName, (validate getByName domain).1 = none →
    2 ≤ (labels domain).length ∧ ∀ label ∈ labels domain, label.length ≤ 63

/-! ### Labels -/

section Labels

variable {b s t label : Text} {ls : List Text}

theorem labels_dot (hb : '.' ∉ b) : labels (b ++ '.' :: s) = b :: labels s :=
  List.splitOn_append_cons_self_of_not_mem hb s

theorem labels_noDot (hb : '.' ∉ b) : labels b = [b] := List.splitOn_eq_singleton hb

theorem labels_append (hb : '.' ∉ b) (h : labels s = label :: ls) :
    labels (b ++ s) = (b ++ label) :: ls := by
  induction b with
  | nil => exact h
  | cons c b ih =>
    obtain ⟨hc, hb⟩ := not_or.mp (mt List.mem_cons.mpr hb)
    have hne : (c == '.') = false := beq_eq_false_iff_ne.mpr (Ne.symm hc)
    rw [List.cons_append, labels, List.splitOn_cons_eq_if_modifyHead, hne,
      if_neg Bool.false_ne_true]
    change (labels (b ++ s)).modifyHead _ = _
    rw [ih hb]
    rfl

theorem exists_labels (s : Text) : ∃ label ls, labels s = label :: ls :=
  List.exists_cons_of_ne_nil (List.splitOn_ne_nil '.' s)

/-- The first label and what follows it. -/
theorem eq_of_labels (h : labels s = label :: ls) : '.' ∉ label ∧
    (ls = [] ∧ s = label ∨ ∃ t, s = label ++ '.' :: t ∧ labels t = ls) := by
  by_cases hs : '.' ∈ s
  · obtain ⟨b, t, rfl, hb⟩ := List.eq_append_cons_of_mem hs
    rw [labels_dot hb] at h
    obtain ⟨rfl, rfl⟩ := List.cons.inj h
    exact ⟨hb, .inr ⟨t, rfl, rfl⟩⟩
  · rw [labels_noDot hs] at h
    obtain ⟨rfl, rfl⟩ := List.cons.inj h
    exact ⟨hs, .inl ⟨rfl, rfl⟩⟩

theorem not_isDot_of_isLabelChar {c : Char} (h : isLabelChar c = true) : c ≠ '.' := by
  rintro rfl
  revert h
  decide

theorem noDot_of_isLabelChar (h : ∀ c ∈ b, isLabelChar c = true) : '.' ∉ b :=
  fun hmem => not_isDot_of_isLabelChar (h '.' hmem) rfl

end Labels

/-! ### Pieces -/

section Chunks

variable {whole s t : Text}

/-- The label that begins here is a number, and not the last one. -/
def Numeric (s : Text) : Prop := ∃ ds t, s = ds ++ '.' :: t ∧ ds ≠ [] ∧ ∀ c ∈ ds, c.isDigit = true

theorem mem_rests_dot : t ∈ rests whole (.char isDot) s ↔ s = '.' :: t := by
  rw [mem_rests_char]
  constructor
  · rintro ⟨c, hc, rfl⟩
    rw [beq_iff_eq.mp hc]
  · rintro rfl
    exact ⟨'.', rfl, rfl⟩

theorem mem_rests_notNumeric : t ∈ rests whole notNumeric s ↔ t = s ∧ ¬ Numeric s := by
  have hiff : (∃ u, u ∈ rests whole (.seq (.rep (.char Char.isDigit) 1 none) (.char isDot)) s) ↔
    Numeric s := by
    simp only [mem_rests_seq, mem_rests_chars, mem_rests_dot]
    constructor
    · rintro ⟨u, v, ⟨ds, rfl, hlen, -, hds⟩, rfl⟩
      exact ⟨ds, u, rfl, List.length_pos_iff.mp hlen, hds⟩
    · rintro ⟨ds, u, rfl, hne, hds⟩
      exact ⟨u, '.' :: u, ⟨ds, rfl, List.length_pos_iff.mpr hne, by simp, hds⟩, rfl⟩
  rw [notNumeric, mem_rests_notAhead, hiff]

theorem mem_rests_optionalDot : t ∈ rests whole (.rep (.char isDot) 0 (some 1)) s ↔
    s = t ∨ s = '.' :: t := by
  rw [mem_rests_chars]
  constructor
  · rintro ⟨b, rfl, -, hlen, hb⟩
    have hlen := hlen 1 rfl
    rcases b with _ | ⟨c, _ | ⟨d, b⟩⟩
    · exact .inl rfl
    · rw [beq_iff_eq.mp (hb c List.mem_cons_self)]
      exact .inr rfl
    · simp at hlen
  · rintro (rfl | rfl)
    · exact ⟨[], rfl, by simp, by simp, by simp⟩
    · exact ⟨['.'], rfl, by simp, by simp, List.forall_mem_singleton.mpr rfl⟩

theorem mem_rests_block : t ∈ rests whole block s ↔
    ∃ b, (s = b ++ t ∨ s = b ++ '.' :: t) ∧ IsLabel b ∧ b.length ≤ 63 := by
  rw [block, mem_rests_seq]
  constructor
  · rintro ⟨u, hu, hdot⟩
    obtain ⟨b, rfl, hlo, hhi, hb⟩ := mem_rests_chars.mp hu
    refine ⟨b, ?_, ⟨List.length_pos_iff.mp hlo, hb⟩, hhi 63 rfl⟩
    exact (mem_rests_optionalDot.mp hdot).imp (congrArg (b ++ ·)) (congrArg (b ++ ·))
  · rintro ⟨b, hs, ⟨hne, hb⟩, hlen⟩
    have hlo := List.length_pos_iff.mpr hne
    have hhi : ∀ n ∈ some 63, b.length ≤ n := by
      rintro n ⟨⟩
      exact hlen
    rcases hs with rfl | rfl
    · exact ⟨t, mem_rests_chars.mpr ⟨b, rfl, hlo, hhi, hb⟩, mem_rests_optionalDot.mpr (.inl rfl)⟩
    · exact ⟨'.' :: t, mem_rests_chars.mpr ⟨b, rfl, hlo, hhi, hb⟩,
        mem_rests_optionalDot.mpr (.inr rfl)⟩

/-- **One piece**: up to 63 characters of a label, with the dot after them or without. -/
theorem mem_rests_chunk : t ∈ rests whole chunk s ↔ ¬ Numeric s ∧
    ∃ b, (s = b ++ t ∨ s = b ++ '.' :: t) ∧ IsLabel b ∧ b.length ≤ 63 := by
  rw [chunk, mem_rests_seq]
  constructor
  · rintro ⟨u, hu, ht⟩
    obtain ⟨rfl, hnumeric⟩ := mem_rests_notNumeric.mp hu
    exact ⟨hnumeric, mem_rests_block.mp ht⟩
  · rintro ⟨hnumeric, hb⟩
    exact ⟨s, mem_rests_notNumeric.mpr ⟨rfl, hnumeric⟩, mem_rests_block.mpr hb⟩

theorem length_of_mem_rests_chunk (h : t ∈ rests whole chunk s) : t.length < s.length := by
  obtain ⟨-, b, hs, ⟨hne, -⟩, -⟩ := mem_rests_chunk.mp h
  have hpos := List.length_pos_iff.mpr hne
  rcases hs with rfl | rfl
  · rw [List.length_append]
    omega
  · rw [List.length_append, List.length_cons]
    omega

end Chunks

/-! ### What is accepted -/

section Accepted

variable {whole s t b label : Text} {ls : List Text}

theorem Fits.append (h : Fits label) (b : Text) : Fits (b ++ label) := by
  obtain ⟨u, c, ds, rfl, hc, hlen⟩ := h
  exact ⟨b ++ u, c, ds, (List.append_assoc _ _ _).symm, hc, hlen⟩

theorem EndsInLetters.append (h : EndsInLetters label) (b : Text) : EndsInLetters (b ++ label) := by
  obtain ⟨u, x, y, rfl, hx, hy⟩ := h
  exact ⟨b ++ u, x, y, (List.append_assoc _ _ _).symm, hx, hy⟩

theorem IsLabel.append (h : IsLabel label) (hb : IsLabel b) : IsLabel (b ++ label) :=
  ⟨fun hnil => hb.1 (List.append_eq_nil_iff.mp hnil).1, fun c hc =>
    (List.mem_append.mp hc).elim (hb.2 c) (h.2 c)⟩

theorem IsLabel.noDot (h : IsLabel label) : '.' ∉ label := noDot_of_isLabelChar h.2

/-- A short piece that is no number. -/
theorem fits_of_length (hlen : b.length ≤ 63) (h : ¬ ∀ c ∈ b, c.isDigit = true) : Fits b := by
  push Not at h
  obtain ⟨c, hc, hdigit⟩ := h
  obtain ⟨u, ds, rfl⟩ := List.append_of_mem hc
  refine ⟨u, c, ds, rfl, Bool.not_eq_true _ ▸ hdigit, ?_⟩
  rw [List.length_append, List.length_cons] at hlen
  omega

/-- **One piece more** in front of what remains. -/
theorem remains_of_chunk (hchunk : t ∈ rests whole chunk s) (h : Remains t) : Remains s := by
  obtain ⟨hnumeric, b, rfl | rfl, hb, hlen⟩ := mem_rests_chunk.mp hchunk
  · obtain ⟨label, ls, hls⟩ := exists_labels t
    rw [Remains, hls] at h
    rw [Remains, labels_append hb.noDot hls]
    rcases ls with _ | ⟨next, ls⟩
    · exact ⟨h.1.append hb, h.2.append b⟩
    · obtain ⟨⟨hlabel, hfits⟩, hrest⟩ := h
      exact ⟨⟨hlabel.append hb, hfits.append b⟩, hrest⟩
  · have hfits : Fits b := fits_of_length hlen fun hdigits => hnumeric ⟨b, t, rfl, hb.1, hdigits⟩
    obtain ⟨label, ls, hls⟩ := exists_labels t
    rw [Remains, hls] at h
    rw [Remains, labels_dot hb.noDot, hls]
    exact ⟨⟨hb, hfits⟩, h⟩

theorem remains_of_rounds (h : Remains t) :
    ∀ {k : ℕ} {s : Text}, t ∈ rounds (rests whole chunk) k s → Remains s
  | 0, s, hk => mem_rounds_zero.mp hk ▸ h
  | k + 1, s, hk => by
    obtain ⟨u, hu, ht⟩ := mem_rounds_succ.mp hk
    exact remains_of_chunk hu (remains_of_rounds h ht)

/-! What remains is one label, or a label and a dot before what remains. -/

theorem remains_last (hlabel : IsLabel s) (hends : EndsInLetters s) : Remains s := by
  rw [Remains, labels_noDot hlabel.noDot]
  exact ⟨hlabel, hends⟩

theorem remains_inner (hlabel : IsLabel label) (hfits : Fits label) (h : Remains t) :
    Remains (label ++ '.' :: t) := by
  obtain ⟨next, ls, hls⟩ := exists_labels t
  rw [Remains, hls] at h
  rw [Remains, labels_dot hlabel.noDot, hls]
  exact ⟨⟨hlabel, hfits⟩, h⟩

theorem Remains.inv (h : Remains s) : IsLabel s ∧ EndsInLetters s ∨
    ∃ label t, s = label ++ '.' :: t ∧ IsLabel label ∧ Fits label ∧ Remains t := by
  obtain ⟨label, ls, hls⟩ := exists_labels s
  rw [Remains, hls] at h
  obtain ⟨-, ⟨rfl, rfl⟩ | ⟨t, rfl, rfl⟩⟩ := eq_of_labels hls
  · exact .inl h
  · obtain ⟨next, rest, hrest⟩ := exists_labels t
    rw [hrest] at h
    refine .inr ⟨label, t, rfl, h.1.1, h.1.2, ?_⟩
    rw [Remains, hrest]
    exact h.2

theorem Remains.length (h : Remains s) : 2 ≤ s.length := by
  rcases h.inv with ⟨-, u, a, b, rfl, -⟩ | ⟨label, t, rfl, ⟨hne, -⟩, -⟩
  · simp
  · have hpos := List.length_pos_iff.mpr hne
    rw [List.length_append, List.length_cons]
    omega

theorem Remains.chars (h : Remains s) : ∀ c ∈ s, isLabelChar c = true ∨ c = '.' := by
  induction hn : s.length using Nat.strongRecOn generalizing s with
  | ind n ih =>
    intro c hc
    rcases h.inv with ⟨hlabel, -⟩ | ⟨label, t, rfl, hlabel, -, ht⟩
    · exact .inl (hlabel.2 c hc)
    · rw [List.length_append, List.length_cons] at hn
      rcases List.mem_append.mp hc with hc | hc
      · exact .inl (hlabel.2 c hc)
      · rcases List.mem_cons.mp hc with rfl | hc
        · exact .inr rfl
        · exact ih t.length (by omega) ht rfl c hc

theorem numeric_dot (hb : '.' ∉ b) (h : Numeric (b ++ '.' :: t)) : ∀ c ∈ b, c.isDigit = true := by
  obtain ⟨ds, u, heq, -, hds⟩ := h
  have hdot : '.' ∉ ds := fun hmem => absurd (hds '.' hmem) (by decide)
  have hlabels := congrArg labels heq
  rw [labels_dot hb, labels_dot hdot] at hlabels
  rw [(List.cons.inj hlabels).1]
  exact hds

/-- **One piece less**: a character, or the label up to its dot if there are digits only behind its
first character. -/
theorem exists_chunk (whole : Text) (h : Remains s) (hlen : 3 ≤ s.length) :
    ∃ t, t ∈ rests whole chunk s ∧ Remains t := by
  rcases h.inv with ⟨hlabel, u, x, y, rfl, hx, hy⟩ | ⟨label, t, rfl, hlabel, hfits, ht⟩
  · have hdot := hlabel.noDot
    have hnumeric : ¬ Numeric (u ++ [x, y]) := by
      rintro ⟨ds, v, heq, -⟩
      exact hdot (heq ▸ by simp)
    rcases u with _ | ⟨c, u⟩
    · simp at hlen
    · have hc : isLabelChar c = true := hlabel.2 c List.mem_cons_self
      refine ⟨u ++ [x, y], mem_rests_chunk.mpr ⟨hnumeric, [c], .inl rfl,
        ⟨by simp, by simpa using hc⟩, by simp⟩, remains_last ⟨by simp, fun d hd =>
        hlabel.2 d (List.mem_cons_of_mem c hd)⟩ ⟨u, x, y, rfl, hx, hy⟩⟩
  · obtain ⟨c, l, rfl⟩ := List.exists_cons_of_ne_nil hlabel.1
    have hnumeric : ¬ Numeric (c :: l ++ '.' :: t) := by
      intro hnum
      obtain ⟨u, d, ds, heq, hd, -⟩ := hfits
      have hdigit := numeric_dot hlabel.noDot hnum d (heq ▸ by simp)
      rw [hd] at hdigit
      cases hdigit
    obtain ⟨u, d, ds, heq, hd, hds⟩ := hfits
    by_cases hdigits : ∀ e ∈ l, e.isDigit = true
    · have hshort : (c :: l).length ≤ 63 := by
        rcases u with _ | ⟨v, u⟩
        · obtain ⟨-, rfl⟩ := List.cons.inj heq
          rw [List.length_cons]
          omega
        · obtain ⟨-, rfl⟩ := List.cons.inj heq
          have hdigit := hdigits d (by simp)
          rw [hd] at hdigit
          cases hdigit
      exact ⟨t, mem_rests_chunk.mpr ⟨hnumeric, c :: l, .inr rfl, hlabel, hshort⟩, ht⟩
    · have hne : l ≠ [] := by
        rintro rfl
        exact hdigits (by simp)
      have hl : Fits l := by
        rcases u with _ | ⟨v, u⟩
        · obtain ⟨-, rfl⟩ := List.cons.inj heq
          exact fits_of_length (by omega) hdigits
        · obtain ⟨-, rfl⟩ := List.cons.inj heq
          exact ⟨u, d, ds, rfl, hd, hds⟩
      have hc : isLabelChar c = true := hlabel.2 c List.mem_cons_self
      refine ⟨l ++ '.' :: t, mem_rests_chunk.mpr ⟨hnumeric, [c], .inl rfl,
        ⟨by simp, by simpa using hc⟩, by simp⟩, remains_inner ⟨hne, fun e he =>
        hlabel.2 e (List.mem_cons_of_mem c he)⟩ hl ht⟩

/-- Piece by piece, down to two letters. -/
theorem exists_rounds (whole : Text) (h : Remains s) :
    ∃ k x y, [x, y] ∈ rounds (rests whole chunk) k s ∧ isLetter x = true ∧ isLetter y = true := by
  induction hn : s.length using Nat.strongRecOn generalizing s with
  | ind n ih =>
    rcases Nat.lt_or_ge s.length 3 with hshort | hlong
    · rcases h.inv with ⟨-, u, x, y, rfl, hx, hy⟩ | ⟨label, t, rfl, ⟨hne, -⟩, -, ht⟩
      · rcases u with _ | ⟨c, u⟩
        · exact ⟨0, x, y, mem_rounds_zero.mpr rfl, hx, hy⟩
        · simp at hshort
          omega
      · have hpos := List.length_pos_iff.mpr hne
        have htwo := ht.length
        rw [List.length_append, List.length_cons] at hshort
        omega
    · obtain ⟨t, hchunk, ht⟩ := exists_chunk whole h hlong
      have hlt := length_of_mem_rests_chunk hchunk
      obtain ⟨k, x, y, hk, hx, hy⟩ := ih t.length (by omega) ht rfl
      exact ⟨k + 1, x, y, mem_rounds_succ.mpr ⟨t, hchunk, hk⟩, hx, hy⟩

theorem isLineEnd_of_isLabelChar {c : Char} (h : isLabelChar c = true ∨ c = '.') :
    isLineEnd c = false := by
  rw [← Bool.not_eq_true]
  intro hend
  simp only [isLineEnd, Bool.or_eq_true, beq_iff_eq] at hend
  rcases hend with (((rfl | rfl) | rfl) | rfl) | rfl <;> revert h <;> decide

/-- `$` after characters of labels and dots: the text is at its end. -/
theorem eq_nil_of_isStop (hs : ∀ c ∈ s, isLabelChar c = true ∨ c = '.')
    (h : isStop whole s = true) : s = [] := by
  have hne : ∀ c ∈ s, isLineEnd c = false := fun c hc => isLineEnd_of_isLabelChar (hs c hc)
  rcases s with _ | ⟨c, _ | ⟨d, _ | ⟨e, s⟩⟩⟩
  · rfl
  · simp [isStop, hne c] at h
  · obtain ⟨rfl, -⟩ : c = '\r' ∧ d = '\n' := by simpa [isStop] using h
    exact absurd (hne '\r' List.mem_cons_self) (by decide)
  · cases h

theorem mem_rests_lengthCheck : t ∈ rests s lengthCheck s ↔
    t = s ∧ ∃ b u, s = b ++ u ∧ 1 ≤ b.length ∧
    b.length ≤ 254 ∧ (∀ c ∈ b, isLineEnd c = false) ∧ isStop s u = true := by
  rw [lengthCheck, mem_rests_ahead]
  refine and_congr_right fun _ => ?_
  constructor
  · rintro ⟨u, hu⟩
    obtain ⟨v, hv, hu⟩ := mem_rests_seq.mp hu
    obtain ⟨w, hw, hu⟩ := mem_rests_seq.mp hu
    obtain ⟨rfl, -⟩ := mem_rests_start.mp hv
    obtain ⟨rfl, hstop⟩ := mem_rests_stop.mp hu
    obtain ⟨b, hb, hlo, hhi, hchars⟩ := mem_rests_chars.mp hw
    exact ⟨b, u, hb, hlo, hhi 254 rfl, fun c hc => by simpa using hchars c hc, hstop⟩
  · rintro ⟨b, u, hb, hlo, hhi, hchars, hstop⟩
    refine ⟨u, mem_rests_seq.mpr ⟨s, mem_rests_start.mpr ⟨rfl, rfl⟩, mem_rests_seq.mpr ⟨u, ?_, ?_⟩⟩⟩
    · refine mem_rests_chars.mpr ⟨b, hb, hlo, ?_, fun c hc => by simpa using hchars c hc⟩
      rintro n ⟨⟩
      exact hhi
    · exact mem_rests_stop.mpr ⟨rfl, hstop⟩

theorem isLabelChar_of_isLetter {c : Char} (h : isLetter c = true) : isLabelChar c = true := by
  have halpha : c.isAlpha = true := h
  simp [isLabelChar, Char.isAlphanum, halpha]

/-- The letters at the end remain to the last. -/
theorem remains_of_letters (h : ∀ c ∈ s, isLetter c = true) (hlen : 2 ≤ s.length) : Remains s := by
  have hlabel : IsLabel s :=
    ⟨List.ne_nil_of_length_pos (by omega), fun c hc => isLabelChar_of_isLetter (h c hc)⟩
  have hlast : s.drop (s.length - 2) <:+ s := List.drop_suffix _ _
  obtain ⟨u, hu⟩ := hlast
  have htwo : (s.drop (s.length - 2)).length = 2 := by
    rw [List.length_drop]
    omega
  obtain ⟨x, y, hxy⟩ := List.length_eq_two.mp htwo
  rw [hxy] at hu
  exact remains_last hlabel ⟨u, x, y, hu.symm, h x (hu ▸ by simp), h y (hu ▸ by simp)⟩

/-- **The names that the pattern accepts.** -/
theorem matches_iff {domain : Text} : matchesAll matcherFQDN domain = true ↔ Accepted domain := by
  have hmem : matchesAll matcherFQDN domain = true ↔ [] ∈ rests domain matcherFQDN domain :=
    List.contains_iff_mem
  rw [hmem, matcherFQDN]
  constructor
  · intro h
    obtain ⟨u, hu, h⟩ := mem_rests_seq.mp h
    obtain ⟨v, hv, h⟩ := mem_rests_seq.mp h
    obtain ⟨w, hw, h⟩ := mem_rests_seq.mp h
    obtain ⟨z, hz, h⟩ := mem_rests_seq.mp h
    obtain ⟨rfl, b, rest, hsplit, -, hlen, -, hstop⟩ := mem_rests_lengthCheck.mp hu
    obtain ⟨rfl, -⟩ := mem_rests_start.mp hv
    obtain ⟨k, hk, hrounds⟩ := (mem_rests_plus fun s u hu => length_of_mem_rests_chunk hu).mp hw
    obtain ⟨letters, hletters, htwo, -, hchars⟩ := mem_rests_chars.mp hz
    obtain ⟨rfl, -⟩ := mem_rests_stop.mp h
    rw [List.append_nil] at hletters
    subst hletters
    have hremains := remains_of_rounds (remains_of_letters hchars htwo) hrounds
    have hlong := length_of_mem_rounds (fun s u hu => length_of_mem_rests_chunk hu) hrounds
    have hrest : rest = [] := by
      refine eq_nil_of_isStop (fun c hc => hremains.chars c ?_) hstop
      rw [hsplit]
      exact List.mem_append_right b hc
    rw [hrest, List.append_nil] at hsplit
    exact ⟨by rw [hsplit]; exact hlen, by omega, hremains⟩
  · rintro ⟨hlen, hlong, hremains⟩
    have hlines : ∀ c ∈ domain, isLineEnd c = false :=
      fun c hc => isLineEnd_of_isLabelChar (hremains.chars c hc)
    obtain ⟨k, x, y, hrounds, hx, hy⟩ := exists_rounds domain hremains
    have hk : 1 ≤ k := by
      by_contra hzero
      obtain rfl : k = 0 := by omega
      rw [← mem_rounds_zero.mp hrounds] at hlong
      simp at hlong
    refine mem_rests_seq.mpr ⟨domain, mem_rests_lengthCheck.mpr
      ⟨rfl, domain, [], (List.append_nil _).symm, by omega, hlen, hlines, rfl⟩, ?_⟩
    refine mem_rests_seq.mpr ⟨domain, mem_rests_start.mpr ⟨rfl, rfl⟩, ?_⟩
    refine mem_rests_seq.mpr ⟨[x, y],
      (mem_rests_plus fun s u hu => length_of_mem_rests_chunk hu).mpr ⟨k, hk, hrounds⟩, ?_⟩
    refine mem_rests_seq.mpr
      ⟨[], mem_rests_chars.mpr ⟨[x, y], rfl, by simp, by simp, ?_⟩, mem_rests_stop.mpr ⟨rfl, rfl⟩⟩
    exact List.forall_mem_cons.mpr ⟨hx, List.forall_mem_singleton.mpr hy⟩

end Accepted

/-! ### What is fully qualified -/

section FullyQualified

variable {domain : Text} {ls : List Text} {inner last inner' last' : Text → Prop}

theorem Each.imp (hinner : ∀ label ∈ ls, inner label → inner' label)
    (hlast : ∀ label ∈ ls.getLast?, label ∈ ls → last label → last' label)
    (h : Each inner last ls) :
    Each inner' last' ls := by
  induction ls with
  | nil => exact h
  | cons label ls ih =>
    rcases ls with _ | ⟨next, rest⟩
    · exact hlast label rfl List.mem_cons_self h
    · obtain ⟨hlabel, hrest⟩ := h
      refine ⟨hinner label List.mem_cons_self hlabel,
        ih (fun l hl => hinner l (List.mem_cons_of_mem label hl)) ?_ hrest⟩
      exact fun l hl hmem => hlast l (by rwa [List.getLast?_cons_cons])
        (List.mem_cons_of_mem label hmem)

/-- What holds of each label but the last one, and what holds of that. -/
theorem Each.forall_mem (h : Each inner last ls) : ∀ label ∈ ls, inner label ∨ last label := by
  induction ls with
  | nil => exact fun label hl => absurd hl List.not_mem_nil
  | cons label ls ih =>
    rcases ls with _ | ⟨next, rest⟩
    · exact List.forall_mem_singleton.mpr (.inr h)
    · exact List.forall_mem_cons.mpr ⟨.inl h.1, ih h.2⟩

theorem Each.of_getLast? (h : Each inner last ls) : ∀ label ∈ ls.getLast?, last label := by
  induction ls with
  | nil => exact fun label hl => absurd hl (Option.not_mem_none label)
  | cons label ls ih =>
    rcases ls with _ | ⟨next, rest⟩
    · rintro l ⟨⟩
      exact h
    · rw [List.getLast?_cons_cons]
      exact ih h.2

theorem endsInLetters_of_letters {label : Text} (hlen : 2 ≤ label.length)
    (h : ∀ c ∈ label, isLetter c = true) :
    EndsInLetters label := by
  have hremains := remains_of_letters h hlen
  have hdot : '.' ∉ label := noDot_of_isLabelChar fun c hc => isLabelChar_of_isLetter (h c hc)
  rw [Remains, labels_noDot hdot] at hremains
  exact hremains.2

theorem FQDN.accepted (h : FQDN domain) : Accepted domain := by
  have hremains : Remains domain := by
    refine Each.imp ?_ ?_ h.labels
    · rintro label - ⟨hlabel, hlen, hdigits⟩
      exact ⟨hlabel, fits_of_length hlen hdigits⟩
    · rintro label - - ⟨-, htwo, hletters⟩
      have hlabel : IsLabel label :=
        ⟨List.ne_nil_of_length_pos (by omega), fun c hc => isLabelChar_of_isLetter (hletters c hc)⟩
      exact ⟨hlabel, endsInLetters_of_letters htwo hletters⟩
  refine ⟨h.length, ?_, hremains⟩
  rcases hremains.inv with ⟨hlabel, -⟩ | ⟨label, t, rfl, ⟨hne, -⟩, -, ht⟩
  · have hseveral := h.several
    rw [labels_noDot hlabel.noDot, List.length_singleton] at hseveral
    omega
  · have hpos := List.length_pos_iff.mpr hne
    have htwo := ht.length
    rw [List.length_append, List.length_cons]
    omega

theorem FQDN.strict (h : FQDN domain) : Strict domain := by
  refine ⟨h.several, fun label hl => ?_, fun label hl => (h.labels.of_getLast? label hl).2.2⟩
  rcases h.labels.forall_mem label hl with ⟨-, hlen, -⟩ | ⟨hlen, -⟩
  · exact hlen
  · exact hlen

theorem Accepted.fqdn (h : Accepted domain) (hstrict : Strict domain) : FQDN domain := by
  obtain ⟨hseveral, hlen, hletters⟩ := hstrict
  refine ⟨h.length, hseveral, Each.imp ?_ ?_ h.labels⟩
  · rintro label hl ⟨hlabel, u, c, ds, rfl, hc, -⟩
    refine ⟨hlabel, hlen _ hl, fun hdigits => ?_⟩
    have hdigit := hdigits c (by simp)
    rw [hc] at hdigit
    cases hdigit
  · rintro label hlast hl ⟨-, u, x, y, rfl, -⟩
    exact ⟨hlen _ hl, by simp, hletters _ hlast⟩

/-- Only an accepted name is looked up. -/
theorem mem_validate {getByName : Text → Lookup} {name : Text}
    (h : name ∈ (validate getByName domain).2) :
    name = domain ∧ matchesAll matcherFQDN domain = true := by
  unfold validate at h
  split at h
  · cases h
  · split at h
    · rename_i hmatches
      exact ⟨List.mem_singleton.mp h, hmatches⟩
    · cases h

theorem matches_of_validate {getByName : Text → Lookup} (h : (validate getByName domain).1 = none) :
    matchesAll matcherFQDN domain = true := by
  unfold validate at h
  split at h
  · rename_i hnil
    rw [validateDomain, if_pos hnil] at h
    cases h
  · split at h
    · assumption
    · rename_i hnil _
      rw [validateDomain, if_neg hnil] at h
      cases h

/-- **Exactly fully qualified names pass**, unless the pattern accepts a single label, a label of
more than 63 characters or other characters than letters in the last label. -/
theorem validates_iff (domain : Text) : Validates domain ↔ (Accepted domain → Strict domain) := by
  constructor
  · intro h haccepted
    exact (h.fqdn.mp (matches_iff.mpr haccepted)).strict
  · intro h
    have hstrict : matchesAll matcherFQDN domain = true → Strict domain :=
      fun hmatches => h (matches_iff.mp hmatches)
    refine ⟨⟨fun hmatches => (matches_iff.mp hmatches).fqdn (hstrict hmatches), ?_⟩, ?_, ?_⟩
    · exact fun hfqdn => matches_iff.mpr hfqdn.accepted
    · intro getByName name hname
      obtain ⟨rfl, hmatches⟩ := mem_validate hname
      exact ⟨(hstrict hmatches).1, (hstrict hmatches).2.1⟩
    · intro getByName hnone
      have hs := hstrict (matches_of_validate hnone)
      exact ⟨hs.1, hs.2.1⟩

/-- `foo` passes. -/
theorem not_validates_foo : ¬ Validates "foo".toList := by
  intro h
  have haccepted : Accepted "foo".toList :=
    ⟨by decide, by decide, remains_of_letters (List.all_eq_true.mp (by decide)) (by decide)⟩
  have hseveral := (h.fqdn.mp (matches_iff.mpr haccepted)).several
  rw [labels_noDot (by decide)] at hseveral
  simp at hseveral

end FullyQualified

end ServeD.Managers.Domains
