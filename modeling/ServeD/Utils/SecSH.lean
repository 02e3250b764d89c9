import ServeD.Utils.PublicKeys

/-! # Key files of the SECSH format

`extractSecSHBase64` against the grammar of its files: between the first line that is the begin
marker and the next one that is the end marker there are header lines, each with the continuation
lines after it, and then the lines of the body. What a header line looks like is a parameter of the
grammar (`Grammar`): the code takes a line for one if its first colon is not its first character
(`tagged`), so a line that begins with a colon belongs to the body even if there are more colons in
it. -/

namespace ServeD.Utils.SecSH

open ServeD.Utils.PublicKeys

abbrev Line := List Char

def lines (key : List Char) : List Line := key.splitOn '\n'

/-! ### The grammar -/

def IsBegin (line : Line) : Prop := trim line = BEGIN_PUB_KEY

def IsEnd (line : Line) : Prop := trim line = END_PUB_KEY

instance : DecidablePred IsBegin := fun line =>
    inferInstanceAs (Decidable (trim line = BEGIN_PUB_KEY))

instance : DecidablePred IsEnd := fun line => inferInstanceAs (Decidable (trim line = END_PUB_KEY))

/-- The lines between the first begin marker and the end marker after it. -/
def Enclosed (ls content : List Line) : Prop :=
  ∃ pre b e post, ls = pre ++ b :: (content ++ e :: post) ∧ (∀ l ∈ pre, ¬ IsBegin l) ∧ IsBegin b ∧
    (∀ l ∈ content, ¬ IsEnd l) ∧ IsEnd e

/-- A begin marker is followed by an end marker. -/
def HasMarkers (ls : List Line) : Prop :=
  ∃ pre b mid e post, ls = pre ++ b :: (mid ++ e :: post) ∧ IsBegin b ∧ IsEnd e

inductive Kind where
  | header
  | continuation
  | body
  deriving DecidableEq, Repr

/-- The line goes on in the next one. -/
def goesOn (line : Line) : Bool := (trim line).getLast? == some '\\'

section Grammar

variable (header : Line → Bool)

/-- The kind of a line after the lines `before`, the nearest one first: a line that follows a header
or a continuation line that goes on is a continuation line. -/
def kindAfter : List Line → Line → Kind
  | [], line => if header line then .header else .body
  | prev :: before, line =>
    if kindAfter before prev ≠ .body ∧ goesOn prev then .continuation else if header line
      then .header else .body

/-- The lines of the body without the blanks around them, one after another. -/
def bodyFrom : List Line → List Line → List Char
  | _, [] => []
  | before, line :: content =>
    (if kindAfter header before line = .body then trim line else []) ++
      bodyFrom (line :: before) content

/-- There is a header line among the lines that follow `before`. -/
def HeaderIn (before content : List Line) : Prop :=
  ∃ mid line post, content = mid ++ line :: post ∧
    kindAfter header (mid.reverse ++ before) line = .header

/-- There is a header line after a line of the body. -/
def HeaderAfterBody (before content : List Line) : Prop :=
  ∃ pre line post, content = pre ++ line :: post ∧
    kindAfter header (pre.reverse ++ before) line = .body ∧
    HeaderIn header (line :: (pre.reverse ++ before)) post

/-- **The text is read by the grammar.** -/
structure Grammar (key : List Char) : Prop where
  body : ∀ content, Enclosed (lines key) content → ¬ HeaderAfterBody header [] content →
    extractSecSHBase64 key = .ok (bodyFrom header [] content)
  corrupt : extractSecSHBase64 key = .error .CORRUPT_SECSSH_PUBLIC_KEY_STRING ↔
    ¬ HasMarkers (lines key) ∨ ∃ content, Enclosed (lines key) content ∧
    HeaderAfterBody header [] content

end Grammar

/-- `trimLine.indexOf(':') > 0`. -/
def tagged (line : Line) : Bool := decide (0 < (trim line).idxOf ':' ∧ ':' ∈ trim line)

/-- There is a colon after the first character. -/
def hasColon (line : Line) : Bool := (trim line).tail.contains ':'

/-! ### Kinds of lines -/

section Kinds

variable {header : Line → Bool} {before content : List Line} {line : Line}

/-- The next line is a continuation line. -/
def continued (header : Line → Bool) : List Line → Bool
  | [] => false
  | prev :: before => kindAfter header before prev ≠ .body ∧ goesOn prev

theorem kindAfter_eq : kindAfter header before line =
    if continued header before then .continuation else if header line then .header else .body := by
  rcases before with _ | ⟨prev, before⟩
  · rfl
  · simp only [kindAfter, continued, decide_eq_true_eq]

/-- A continuation line. -/
theorem kindAfter_continuation (h : continued header before = true) :
    kindAfter header before line = .continuation ∧ continued header (line :: before) =
      goesOn line := by
  have hkind : kindAfter header before line = .continuation := by rw [kindAfter_eq, if_pos h]
  refine ⟨hkind, ?_⟩
  simp [continued, hkind]

theorem kindAfter_header (h : continued header before = false) (hl : header line = true) :
    kindAfter header before line = .header ∧ continued header (line :: before) = goesOn line := by
  have hkind : kindAfter header before line = .header := by simp [kindAfter_eq, h, hl]
  refine ⟨hkind, ?_⟩
  simp [continued, hkind]

theorem kindAfter_body (h : continued header before = false) (hl : header line = false) :
    kindAfter header before line = .body ∧ continued header (line :: before) = false := by
  have hkind : kindAfter header before line = .body := by simp [kindAfter_eq, h, hl]
  refine ⟨hkind, ?_⟩
  simp [continued, hkind]

theorem headerIn_nil : ¬ HeaderIn header before [] := by
  rintro ⟨mid, line, post, h, -⟩
  simp at h

theorem headerIn_cons : HeaderIn header before (line :: content) ↔
    kindAfter header before line = .header ∨ HeaderIn header (line :: before) content := by
  constructor
  · rintro ⟨mid, l, post, h, hkind⟩
    rcases mid with _ | ⟨m, mid⟩
    · obtain ⟨rfl, rfl⟩ := List.cons.inj h
      exact .inl hkind
    · obtain ⟨rfl, rfl⟩ := List.cons.inj h
      exact .inr ⟨mid, l, post, rfl, by simpa using hkind⟩
  · rintro (hkind | ⟨mid, l, post, rfl, hkind⟩)
    · exact ⟨[], line, content, rfl, hkind⟩
    · exact ⟨line :: mid, l, post, rfl, by simpa using hkind⟩

theorem headerAfterBody_nil : ¬ HeaderAfterBody header before [] := by
  rintro ⟨pre, line, post, h, -⟩
  simp at h

theorem headerAfterBody_cons : HeaderAfterBody header before (line :: content) ↔
    kindAfter header before line = .body ∧ HeaderIn header (line :: before) content ∨
      HeaderAfterBody header (line :: before) content := by
  constructor
  · rintro ⟨pre, l, post, h, hkind, hin⟩
    rcases pre with _ | ⟨p, pre⟩
    · obtain ⟨rfl, rfl⟩ := List.cons.inj h
      exact .inl ⟨hkind, hin⟩
    · obtain ⟨rfl, rfl⟩ := List.cons.inj h
      exact .inr ⟨pre, l, post, rfl, by simpa using hkind, by simpa using hin⟩
  · rintro (⟨hkind, hin⟩ | ⟨pre, l, post, rfl, hkind, hin⟩)
    · exact ⟨[], line, content, rfl, hkind, hin⟩
    · exact ⟨line :: pre, l, post, rfl, by simpa using hkind, by simpa using hin⟩

end Kinds

/-! ### The loop -/

section Loop

variable {before content rest : List Line} {line : Line} {acc : List Char} {seen : Bool}

/-- The variables of the loop after the lines `before`. -/
def after (acc : List Char) (seen : Bool) (before : List Line) : SecSH :=
  ⟨acc, true, seen, continued tagged before⟩

theorem readSecSH_end (h : IsEnd line) :
    readSecSH (line :: rest) (after acc seen before) = .ok (some acc) := by
  rw [readSecSH, IsEnd.eq_def] at *
  simp [after, h]

/-- What is done with a line that is not the end marker. -/
theorem readSecSH_line (h : ¬ IsEnd line) : readSecSH (line :: rest) (after acc seen before) =
    match kindAfter tagged before line with
    | .header =>
      if seen then .error .CORRUPT_SECSSH_PUBLIC_KEY_STRING else readSecSH rest
        (after acc seen (line :: before))
    | .continuation => readSecSH rest (after acc seen (line :: before))
    | .body => readSecSH rest (after (acc ++ trim line) true (line :: before)) := by
  have hend : (trim line == END_PUB_KEY) = false := by simpa [IsEnd] using h
  rw [readSecSH]
  rcases hc : continued tagged before with _ | _
  · rcases ht : tagged line with _ | _
    · obtain ⟨hkind, hnext⟩ := kindAfter_body hc ht
      have htag : ¬ (0 < (trim line).idxOf ':' ∧ ':' ∈ trim line) := by simpa [tagged] using ht
      simp only [hkind, after, hnext, hc, hend]
      simp [htag]
    · obtain ⟨hkind, hnext⟩ := kindAfter_header hc ht
      have htag : 0 < (trim line).idxOf ':' ∧ ':' ∈ trim line := by simpa [tagged] using ht
      simp only [hkind, after, hnext, hc, hend]
      simp [htag, goesOn]
  · obtain ⟨hkind, hnext⟩ := @kindAfter_continuation tagged before line hc
    simp only [hkind, after, hnext, hc, hend]
    simp [goesOn]

/-- **The loop inside the markers**: it fails at a header line after a line of the body, and has
collected the body otherwise. -/
theorem readSecSH_content (rest : List Line) :
    ∀ (content before : List Line) (acc : List Char) (seen : Bool),
    (∀ l ∈ content, ¬ IsEnd l) →
      (seen = true ∧ HeaderIn tagged before content ∨ HeaderAfterBody tagged before content) ∧
          readSecSH (content ++ rest) (after acc seen before) =
            .error .CORRUPT_SECSSH_PUBLIC_KEY_STRING ∨
        ¬ (seen = true ∧ HeaderIn tagged before content ∨ HeaderAfterBody tagged before content) ∧
          ∃ seen', readSecSH (content ++ rest) (after acc seen before) =
            readSecSH rest (after (acc ++ bodyFrom tagged before content) seen'
              (content.reverse ++ before))
  | [], before, acc, seen, _ => by
    refine .inr ⟨?_, seen, ?_⟩
    · rintro (⟨-, h⟩ | h)
      · exact headerIn_nil h
      · exact headerAfterBody_nil h
    · simp [bodyFrom]
  | line :: content, before, acc, seen, hend => by
    have hline : ¬ IsEnd line := hend line List.mem_cons_self
    have hcontent : ∀ l ∈ content, ¬ IsEnd l := fun l hl => hend l (List.mem_cons_of_mem line hl)
    rw [List.cons_append, readSecSH_line hline, headerIn_cons, headerAfterBody_cons, bodyFrom,
      List.reverse_cons, List.append_assoc, List.singleton_append]
    rcases hkind : kindAfter tagged before line with _ | _ | _
    · rcases seen with _ | _
      · simpa [hkind] using readSecSH_content rest content (line :: before) acc false hcontent
      · exact .inl ⟨.inl ⟨rfl, .inl rfl⟩, rfl⟩
    · simpa [hkind] using readSecSH_content rest content (line :: before) acc seen hcontent
    · have ih := readSecSH_content rest content (line :: before) (acc ++ trim line) true hcontent
      -- a header line below is one after this line, whether a line of the body was before it or not
      have hiff : (seen = true ∧ HeaderIn tagged (line :: before) content ∨
          HeaderIn tagged (line :: before) content ∨
          HeaderAfterBody tagged (line :: before) content) ↔
          HeaderIn tagged (line :: before) content ∨
            HeaderAfterBody tagged (line :: before) content := by
        tauto
      simpa [hkind, hiff, List.append_assoc] using ih

theorem readSecSH_exhausted : ∀ (content before : List Line) (acc : List Char) (seen : Bool),
    (∀ l ∈ content, ¬ IsEnd l) →
      readSecSH content (after acc seen before) = .error .CORRUPT_SECSSH_PUBLIC_KEY_STRING ∨
        readSecSH content (after acc seen before) = .ok none := by
  intro content before acc seen hend
  rcases readSecSH_content [] content before acc seen hend with ⟨-, h⟩ | ⟨-, seen', h⟩
  · rw [List.append_nil] at h
    exact .inl h
  · rw [List.append_nil] at h
    exact .inr (by rw [h, readSecSH])

theorem readSecSH_begin {b : Line} (hb : IsBegin b) :
    ∀ {pre : List Line}, (∀ l ∈ pre, ¬ IsBegin l) →
    readSecSH (pre ++ b :: rest) ⟨[], false, false, false⟩ = readSecSH rest (after [] false [])
  | [], _ => by
    have hbegin : (trim b == BEGIN_PUB_KEY) = true := by simpa [IsBegin] using hb
    rw [List.nil_append, readSecSH]
    simp [hbegin, after, continued]
  | l :: pre, h => by
    have hl : (trim l == BEGIN_PUB_KEY) = false := by simpa [IsBegin] using h l List.mem_cons_self
    rw [List.cons_append, readSecSH]
    simp only [hl, Bool.and_false, Bool.false_eq_true, if_false]
    exact readSecSH_begin hb fun m hm => h m (List.mem_cons_of_mem l hm)

theorem readSecSH_noBegin : ∀ {ls : List Line}, (∀ l ∈ ls, ¬ IsBegin l) →
    readSecSH ls ⟨[], false, false, false⟩ = .ok none
  | [], _ => rfl
  | l :: ls, h => by
    have hl : (trim l == BEGIN_PUB_KEY) = false := by simpa [IsBegin] using h l List.mem_cons_self
    rw [readSecSH]
    simp only [hl, Bool.and_false, Bool.false_eq_true, if_false]
    exact readSecSH_noBegin fun m hm => h m (List.mem_cons_of_mem l hm)

end Loop

/-! ### Whole texts -/

/-- The first line with a property. -/
theorem exists_first (p : Line → Prop) (ls : List Line) (h : ∃ l ∈ ls, p l) :
    ∃ pre l post, ls = pre ++ l :: post ∧ (∀ m ∈ pre, ¬ p m) ∧ p l := by
  classical
  induction ls with
  | nil => simp at h
  | cons l ls ih =>
    by_cases hl : p l
    · exact ⟨[], l, ls, rfl, by simp, hl⟩
    · obtain ⟨m, hm, hp⟩ := h
      have hm' : m ∈ ls := (List.mem_cons.mp hm).resolve_left fun heq => hl (heq ▸ hp)
      obtain ⟨pre, k, post, rfl, hpre, hk⟩ := ih ⟨m, hm', hp⟩
      refine ⟨l :: pre, k, post, rfl, ?_, hk⟩
      intro n hn
      rcases List.mem_cons.mp hn with rfl | hn
      · exact hl
      · exact hpre n hn

theorem hasMarkers_iff {ls : List Line} : HasMarkers ls ↔ ∃ content, Enclosed ls content := by
  constructor
  · rintro ⟨pre, b, mid, e, post, rfl, hb, he⟩
    obtain ⟨pre', b', post', hls, hpre', hb'⟩ := exists_first IsBegin
      (pre ++ b :: (mid ++ e :: post)) ⟨b, by simp, hb⟩
    have hmem : e ∈ post' := by
      rcases List.append_eq_append_iff.mp hls with ⟨a, rfl, ha⟩ | ⟨c, rfl, hc⟩
      · rcases a with _ | ⟨x, a⟩
        · obtain ⟨-, rfl⟩ := List.cons.inj ha
          simp
        · obtain ⟨rfl, -⟩ := List.cons.inj ha
          exact absurd hb (hpre' b (by simp))
      · rcases c with _ | ⟨x, c⟩
        · obtain ⟨-, rfl⟩ := List.cons.inj hc
          simp
        · obtain ⟨-, rfl⟩ := List.cons.inj hc
          simp
    obtain ⟨content, e', post'', rfl, hcontent, he'⟩ := exists_first IsEnd post' ⟨e, hmem, he⟩
    exact ⟨content, pre', b', e', post'', hls, hpre', hb', hcontent, he'⟩
  · rintro ⟨content, pre, b, e, post, h, -, hb, -, he⟩
    exact ⟨pre, b, content, e, post, h, hb, he⟩

/-! What the scan ends with is the result. -/

section Extract

variable {key : List Char}

theorem extract_of_error {x : Failure} (h : readSecSH (lines key) ⟨[], false, false,
      false⟩ = .error x) :
    extractSecSHBase64 key = .error x := by
  change readSecSH (key.splitOn '\n') _ = _ at h
  rw [extractSecSHBase64, h]
  rfl

theorem extract_of_none (h : readSecSH (lines key) ⟨[], false, false, false⟩ = .ok none) :
    extractSecSHBase64 key = .error .CORRUPT_SECSSH_PUBLIC_KEY_STRING := by
  change readSecSH (key.splitOn '\n') _ = _ at h
  rw [extractSecSHBase64, h]
  rfl

theorem extract_of_some {base64Data : List Char}
    (h : readSecSH (lines key) ⟨[], false, false, false⟩ = .ok (some base64Data)) :
    extractSecSHBase64 key = .ok base64Data := by
  change readSecSH (key.splitOn '\n') _ = _ at h
  rw [extractSecSHBase64, h]
  rfl

end Extract

/-- The text between the markers decides. -/
theorem extractSecSHBase64_enclosed {key : List Char} {content : List Line}
    (h : Enclosed (lines key) content) :
    HeaderAfterBody tagged [] content ∧ extractSecSHBase64 key =
      .error .CORRUPT_SECSSH_PUBLIC_KEY_STRING ∨
      ¬ HeaderAfterBody tagged [] content ∧ extractSecSHBase64 key =
        .ok (bodyFrom tagged [] content) := by
  obtain ⟨pre, b, e, post, hls, hpre, hb, hcontent, he⟩ := h
  have hread : readSecSH (lines key) ⟨[], false, false, false⟩ =
      readSecSH (content ++ e :: post) (after [] false []) := by rw [hls, readSecSH_begin hb hpre]
  rcases readSecSH_content (e :: post) content [] [] false hcontent with
    ⟨⟨hseen, -⟩ | hclash, hres⟩ | ⟨hclash, seen', hres⟩
  · cases hseen
  · rw [hres] at hread
    exact .inl ⟨hclash, extract_of_error hread⟩
  · rw [hres, readSecSH_end he, List.nil_append] at hread
    exact .inr ⟨fun h => hclash (.inr h), extract_of_some hread⟩

/-- A text without markers. -/
theorem extractSecSHBase64_noMarkers {key : List Char} (h : ¬ HasMarkers (lines key)) :
    extractSecSHBase64 key = .error .CORRUPT_SECSSH_PUBLIC_KEY_STRING := by
  by_cases hbegin : ∃ l ∈ lines key, IsBegin l
  · obtain ⟨pre, b, post, hls, hpre, hb⟩ := exists_first IsBegin (lines key) hbegin
    have hend : ∀ l ∈ post, ¬ IsEnd l := by
      intro l hl he
      obtain ⟨mid, post', rfl⟩ := List.append_of_mem hl
      exact h ⟨pre, b, mid, l, post', hls, hb, he⟩
    have hread : readSecSH (lines key) ⟨[], false, false, false⟩ = readSecSH post
      (after [] false []) := by
      rw [hls, readSecSH_begin hb hpre]
    rcases readSecSH_exhausted post [] [] false hend with hres | hres
    · exact extract_of_error (hread.trans hres)
    · exact extract_of_none (hread.trans hres)
  · have hnone : ∀ l ∈ lines key, ¬ IsBegin l := fun l hl hb => hbegin ⟨l, hl, hb⟩
    exact extract_of_none (readSecSH_noBegin hnone)

/-- **Every text is read by the grammar whose header lines have their first colon after
the first character.** -/
theorem grammar_tagged (key : List Char) : Grammar tagged key where
  body content h hclash := by
    rcases extractSecSHBase64_enclosed h with ⟨hclash', -⟩ | ⟨-, hok⟩
    · exact absurd hclash' hclash
    · exact hok
  corrupt := by
    constructor
    · intro herror
      by_cases hmarkers : HasMarkers (lines key)
      · obtain ⟨content, h⟩ := hasMarkers_iff.mp hmarkers
        rcases extractSecSHBase64_enclosed h with ⟨hclash, -⟩ | ⟨-, hok⟩
        · exact .inr ⟨content, h, hclash⟩
        · rw [hok] at herror
          cases herror
      · exact .inl hmarkers
    · rintro (hmarkers | ⟨content, h, hclash⟩)
      · exact extractSecSHBase64_noMarkers hmarkers
      · rcases extractSecSHBase64_enclosed h with ⟨-, herror⟩ | ⟨hclash', -⟩
        · exact herror
        · exact absurd hclash hclash'

/-- A line that begins with a colon and has another one. -/
def twoColons : List Char := BEGIN_PUB_KEY ++ '\n' :: ":a:b".toList ++ '\n' :: END_PUB_KEY

/-- The line with two colons is not skipped as a header line: it is the body. -/
theorem not_grammar_hasColon : ¬ Grammar hasColon twoColons := by
  intro h
  have hls : lines twoColons = [] ++ BEGIN_PUB_KEY :: ([":a:b".toList] ++ END_PUB_KEY :: []) := by
    decide
  have henclosed : Enclosed (lines twoColons) [":a:b".toList] := by
    refine ⟨[], BEGIN_PUB_KEY, END_PUB_KEY, [], hls, by simp, by decide, ?_, by decide⟩
    intro l hl
    rw [List.mem_singleton.mp hl]
    decide
  have hclash : ¬ HeaderAfterBody hasColon [] [":a:b".toList] := by
    rw [headerAfterBody_cons]
    rintro (⟨-, hin⟩ | hafter)
    · exact headerIn_nil hin
    · exact headerAfterBody_nil hafter
  have hok := h.body _ henclosed hclash
  revert hok
  decide

end ServeD.Utils.SecSH
