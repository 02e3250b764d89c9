import ServeD.Lib.Backtracking
import ServeD.Lib.Integers
import ServeD.Lib.Replacing

/-! # Cookies

`FromCookies` and `CookieValueParser` of `request/cookies.scala`, and `ToCookies` of
`response/cookies.scala`. A header is cut by a regular expression into names with values; a piece
without a value belongs to the value before it, and names that are attributes belong to the cookie
before them. `SimpleDateFormat` and the clock are outside: dates are milliseconds, with `format` and
`parseDate` between them and their texts.

* `unescape_escape`: what was put between quotes is what is made of it;
* `fromCookies_eq_error_iff`: a header is refused exactly when there is nothing in it but `;` and
  `=`. -/

namespace ServeD.Web.Cookies

open ServeD.Lib.Texts ServeD.Lib.Backtracking ServeD.Lib.Replacing ServeD.Lib.Integers
open ServeD.Lib.Patterns (isLineEnd)
open ServeD.Lib.Regexes (isStop)

/-! ### Cookies -/

structure Cookie where
  name : Text
  value : Text
  domain : Option Text
  path : Option Text
  maxAge : Option ℤ
  secure : Option Bool
  httpOnly : Bool
  version : ℤ
  deriving DecidableEq

/-- `Cookie(name, value)`. -/
def Cookie.plain (name value : Text) : Cookie := ⟨name, value, none, none, none, none, false, 0⟩

namespace CookieKeys

def Path : Text := "Path".toList

def Expires : Text := "Expires".toList

def MaxAge : Text := "Max-Age".toList

def Domain : Text := "Domain".toList

def Secure : Text := "Secure".toList

def HTTPOnly : Text := "HTTPOnly".toList

def Comment : Text := "Comment".toList

def CommentURL : Text := "CommentURL".toList

def Discard : Text := "Discard".toList

def Port : Text := "Port".toList

def Version : Text := "Version".toList

def KeyOnly : List Text := [Discard, Secure, HTTPOnly]

end CookieKeys

open CookieKeys

/-- `toLowerCase`; no other character has a letter of the keys for its lower case. -/
def toLowerCase (s : Text) : Text := s.map Char.toLower

/-- What `equalsIgnoreCase` compares, when one of the sides is a key. -/
def foldCase (c : Char) : Char :=
  if c = 'ı' ∨ c = 'İ' then 'i' else if c = 'ſ' then 's' else if c = '\u212a' then 'k'
    else c.toLower

def equalsIgnoreCase (s key : Text) : Bool := s.map foldCase == key.map foldCase

/-! ### Reading -/

/-- `\s` -/
def isSpace (c : Char) : Bool :=
  c == ' ' || c == '\t' || c == '\n' || c == '\x0b' || c == '\x0c' || c == '\r'

/-- `[;,]` -/
def isDelim (c : Char) : Bool := c == ';' || c == ','

/-- `[^;=]` -/
def isName (c : Char) : Bool := c != ';' && c != '='

/-- `["']` -/
def isQuote (c : Char) : Bool := c == '"' || c == '\''

/-- `[^;,]` -/
def isPlain (c : Char) : Bool := c != ';' && c != ','

namespace Cutter

/-- `(?:\s|[;,])*` -/
def lead : Regex := .star (.alt (.char isSpace) (.char isDelim))

/-- `\$*` -/
def dollars : Regex := .star (.char (· == '$'))

/-- `([^;=]+)` -/
def name : Regex := .group 1 (.plus (.char isName))

/-- `(?:\\.|[^"])*` -/
def inside : Regex :=
  .star (.alt (.seq (.char (· == '\\')) (.char fun c => !isLineEnd c))
      (.char (· != '"')))

/-- `["']((?:\\.|[^"])*)["']` -/
def quoted : Regex := .seq (.char isQuote) (.seq (.group 2 inside) (.char isQuote))

/-- `([^;,]*)` -/
def plain : Regex := .group 3 (.star (.char isPlain))

/-- `(?:=(?:..|..))?` -/
def value : Regex := .opt (.seq (.char (· == '=')) (.alt quoted plain))

/-- `(\s*(?:[;,]+\s*|$))` -/
def delim : Regex :=
  .group 4 (.seq (.star (.char isSpace)) (.alt
    (.seq (.plus (.char isDelim)) (.star (.char isSpace))) .stop))

end Cutter

def cutter : Regex :=
  .seq Cutter.lead (.seq Cutter.dollars (.seq Cutter.name (.seq Cutter.value Cutter.delim)))

/-- `is.replace("\\\"", "\"").replace("\\\\", "\\")` -/
def unescape (s : Text) : Text := replace ['\\', '\\'] ['\\'] (replace ['\\', '"'] ['"'] s)

inductive Failure where
  /-- `sys.error("Error parsing cookie string %s" format cstr)` -/
  | parsing (cstr : Text)
  | matchError (matchresult : Text)
  deriving DecidableEq

/-- A name, its value, and what stood behind it. -/
abbrev Piece := Text × Option Text × Text

/-- `case Cutter(cname, couldBeValue, cvalue, delim)`. -/
def piece (matchresult : Text) : Option Piece := do
  let groups ← fullMatch cutter matchresult
  let cname ← groups.lookup 1
  let delim ← groups.lookup 4
  let value := match groups.lookup 3 with
    | some v => some v
    | none => (groups.lookup 2).map unescape
  pure (cname, value, delim)

/-- The names and values that are complete, the last first, and the piece before. -/
structure Reading where
  pairs : List (Text × Option Text)
  prev : Option Piece

def readPiece (r : Reading) (matchresult : Text) : Except Failure Reading :=
  match piece matchresult with
  | none => .error (.matchError matchresult)
  | some (name, value, sep) =>
    match r.prev with
    | none => .ok { r with prev := some (name, some (value.getD []), sep) }
    | some (n0, v0, s0) =>
      if value = none ∧ KeyOnly.any (equalsIgnoreCase name) = false then
        .ok { r with prev := some (n0, some (v0.getD "null".toList ++ s0 ++ name), sep) }
      else .ok ⟨(n0, v0) :: r.pairs, some (name, value, sep)⟩

/-- The names and values of a header. -/
def readPairs (cstr : Text) : Except Failure (List (Text × Option Text)) :=
  match (findAllIn cutter cstr).foldlM readPiece ⟨[], none⟩ with
  | .error e => .error e
  | .ok r =>
    match r.prev with
    | none => .error (.parsing cstr)
    | some (n, v, _) => .ok ((n, v) :: r.pairs).reverse

section Reading

variable (parseDate : Text → Option ℤ) (now : ℤ)

/-- The seconds up to an expiry date, or `none` for an exception. -/
def expiry (v : Option Text) : Option ℤ :=
  match v.bind parseDate with
  | none => none
  | some time =>
    let maxMils := time - now
    some (if maxMils < 1 then 0
      else (BitVec.ofInt 32 (maxMils / 1000) + if maxMils % 1000 ≠ 0 then 1 else 0).toInt)

/-- The cookie with an attribute, if the name is one. -/
def absorb (cookie : Cookie) (name : Text) (v : Option Text) : Option Cookie :=
  let key := toLowerCase name
  if key = toLowerCase Discard then some cookie
  else if key = toLowerCase Secure then some { cookie with secure := some true }
  else if key = toLowerCase HTTPOnly then some { cookie with httpOnly := true }
  else if key = toLowerCase Comment then some cookie
  else if key = toLowerCase CommentURL then some cookie
  else if key = toLowerCase Domain then some { cookie with domain := v }
  else if key = toLowerCase Path then some { cookie with path := v }
  else if key = toLowerCase Expires then
    some (match expiry parseDate now v with
      | some secs => { cookie with maxAge := some secs }
      | none => cookie)
  else if key = toLowerCase MaxAge then
    some (match v.bind fun v => parseInt (String.ofList v) with
      | some secs => { cookie with maxAge := some secs }
      | none => cookie)
  else if key = toLowerCase Version then
    some (match v.bind fun v => parseInt (String.ofList v) with
      | some version => { cookie with version := version }
      | none => cookie)
  else if key = toLowerCase Port then some cookie
  else none

/-- The cookies of some names and values, from the one that is not complete. -/
def bake : Option Cookie → List (Text × Option Text) → List Cookie
  | cookie, [] => cookie.toList
  | none, (n, v) :: pairs => bake (some (.plain n (v.getD []))) pairs
  | some cookie, (n, v) :: pairs =>
    match absorb parseDate now cookie n v with
    | some cookie' => bake (some cookie') pairs
    | none => cookie :: bake (some (.plain n (v.getD []))) pairs

def fromCookies (cstr : Text) : Except Failure (List Cookie) :=
  match readPairs cstr with
  | .error e => .error e
  | .ok [] => .ok []
  | .ok ((n, v) :: pairs) =>
    .ok (bake parseDate now none (if equalsIgnoreCase n Version then pairs else (n, v) :: pairs))

/-- `CookieValueParser`: the last cookie of each name in the headers. -/
def cookieValues (values : List Text) : Except Failure (Text → Option Cookie) := do
  let cookies ← values.mapM (fromCookies parseDate now)
  pure fun name => cookies.flatten.reverse.find? fun c => c.name = name

end Reading

/-! ### Writing -/

def quotables : List Char :=
  ['\t', ' ', '"', '(', ')', ',', '/', ':', ';', '<', '=', '>', '?', '@', '[', '\\', ']',
    '\x7b', '\x7d']

/-- `value.replace("\\", "\\\\").replace("\"", "\\\"")` -/
def escape (value : Text) : Text := replace ['"'] ['\\', '"'] (replace ['\\'] ['\\', '\\'] value)

def quoted (k v : Text) : Text := k ++ '=' :: '"' :: (escape v ++ ['"', ';'])

def literal (k v : Text) : Text := k ++ '=' :: (v ++ [';'])

def add (k v : Text) : Text := if v.any (quotables.contains ·) then quoted k v else literal k v

section Writing

variable (format : ℤ → Text) (now : ℤ)

def gmt (secs : ℤ) : Text := format (now + secs * 1000)

def append (c : Cookie) : Text :=
  add c.name c.value ++
    (match c.maxAge with
      | none => []
      | some ma => if c.version = 0 then literal Expires (gmt format now ma)
        else add MaxAge (toString ma).toList) ++
    (match c.path with
      | none => []
      | some p => if c.version > 0 then add Path p else literal Path p) ++
    (match c.domain with
      | none => []
      | some d => if c.version > 0 then add Domain d else literal Domain d) ++
    (if c.secure = some true then Secure ++ [';'] else []) ++
    (if c.httpOnly = true then HTTPOnly ++ [';'] else []) ++
    (if c.version > 0 then add Version (toString c.version).toList else [])

def toCookies (cs : List Cookie) : Text := (cs.flatMap (append format now)).dropLast

end Writing

/-! ### Quoting -/

section Quoting

/-- What a character is written as between quotes. -/
def escaped (c : Char) : Text := if c = '\\' then ['\\', '\\'] else if c = '"'
    then ['\\', '"'] else [c]

theorem replace_single {a : Char} {v : Text} : ∀ s : Text, replace [a] v s = s.flatMap fun c =>
    if c = a then v else [c]
  | [] => rfl
  | c :: s => by
    by_cases hc : c = a
    · subst hc
      rw [List.flatMap_cons, if_pos rfl, ← replace_single s]
      exact replace_target (List.cons_ne_nil c []) s
    · have hnot : ¬ [a] <+: c :: s := fun h => hc (List.cons_prefix_cons.mp h).1.symm
      rw [replace_cons hnot, List.flatMap_cons, if_neg hc, replace_single s]
      rfl

theorem escape_eq (v : Text) : escape v = v.flatMap escaped := by
  unfold escape
  rw [replace_single, replace_single, List.flatMap_assoc]
  refine List.flatMap_congr fun c _ => ?_
  unfold escaped
  by_cases h1 : c = '\\'
  · subst h1
    rfl
  · by_cases h2 : c = '"'
    · subst h2
      rfl
    · rw [if_neg h1, if_neg h1, if_neg h2, List.flatMap_cons, if_neg h2]
      rfl

theorem head_escaped {v : Text} : (v.flatMap escaped).head? ≠ some '"' := by
  cases v with
  | nil => simp
  | cons c v =>
    rw [List.flatMap_cons]
    unfold escaped
    split_ifs with h1 h2
    · simp
    · simp
    · simpa using h2

/-- The quotes are taken back first: none of them has a backslash that belongs to
another character. -/
theorem replace_quotes : ∀ v : Text, replace ['\\', '"'] ['"'] (v.flatMap escaped) =
    v.flatMap fun c => if c = '\\' then ['\\', '\\'] else [c]
  | [] => rfl
  | c :: v => by
    rw [List.flatMap_cons, List.flatMap_cons]
    by_cases h1 : c = '\\'
    · subst h1
      show replace _ _ ('\\' :: '\\' :: v.flatMap escaped) = '\\' :: '\\' :: _
      have hnot : ¬ ['\\', '"'] <+: '\\' :: v.flatMap escaped := by
        intro h
        obtain ⟨t, ht⟩ := (List.cons_prefix_cons.mp h).2
        exact head_escaped (v := v) (by rw [← ht]; rfl)
      have hnot' : ¬ ['\\', '"'] <+: '\\' :: '\\' :: v.flatMap escaped := by
        intro h
        have := (List.cons_prefix_cons.mp (List.cons_prefix_cons.mp h).2).1
        exact absurd this (by decide)
      rw [replace_cons hnot', replace_cons hnot, replace_quotes v]
      rfl
    · by_cases h2 : c = '"'
      · subst h2
        have htarget : replace ['\\', '"'] ['"'] (['\\', '"'] ++ v.flatMap escaped) =
            ['"'] ++ replace ['\\', '"'] ['"'] (v.flatMap escaped) := replace_target (by simp) _
        rw [replace_quotes v] at htarget
        exact htarget
      · have hc : escaped c = [c] := by
          unfold escaped
          rw [if_neg h1, if_neg h2]
        have hnot : ¬ ['\\', '"'] <+: c :: v.flatMap escaped :=
          fun h => h1 (List.cons_prefix_cons.mp h).1.symm
        rw [hc, if_neg h1, List.singleton_append, List.singleton_append, replace_cons hnot,
          replace_quotes v]

theorem replace_backslashes : ∀ v : Text,
    replace ['\\', '\\'] ['\\'] (v.flatMap fun c => if c = '\\' then ['\\', '\\'] else [c]) = v
  | [] => rfl
  | c :: v => by
    rw [List.flatMap_cons]
    by_cases h1 : c = '\\'
    · subst h1
      have htarget : ∀ t : Text, replace ['\\', '\\'] ['\\'] ('\\' :: '\\' :: t) =
          '\\' :: replace ['\\', '\\'] ['\\'] t := fun t => replace_target (by simp) t
      rw [if_pos rfl, List.cons_append, List.singleton_append, htarget, replace_backslashes v]
    · rw [if_neg h1, List.singleton_append, replace_cons (fun h =>
        h1 (List.cons_prefix_cons.mp h).1.symm), replace_backslashes v]

theorem unescape_escape (v : Text) : unescape (escape v) = v := by
  unfold unescape
  rw [escape_eq, replace_quotes, replace_backslashes]

end Quoting

/-! ### Headers that are refused -/

section Refused

variable {whole s t w : Text} {g : Groups}

/-- The parts of a match. -/
theorem mem_cutter : (g, t) ∈ ways whole cutter s ↔ ∃ t₁ t₂ t₃ t₄ g₁ g₂ g₃ g₄ g₅,
    (g₁, t₁) ∈ ways whole Cutter.lead s ∧ (g₂, t₂) ∈ ways whole Cutter.dollars t₁ ∧
      (g₃, t₃) ∈ ways whole Cutter.name t₂ ∧ (g₄, t₄) ∈ ways whole Cutter.value t₃ ∧
      (g₅, t) ∈ ways whole Cutter.delim t₄ ∧ g = g₁ ++ (g₂ ++ (g₃ ++ (g₄ ++ g₅))) := by
  unfold cutter
  constructor
  · intro h
    obtain ⟨g₁, t₁, h', h₁, hm, hg⟩ := mem_seq.mp h
    obtain ⟨g₂, t₂, h'', h₂, hm, rfl⟩ := mem_seq.mp hm
    obtain ⟨g₃, t₃, h''', h₃, hm, rfl⟩ := mem_seq.mp hm
    obtain ⟨g₄, t₄, g₅, h₄, h₅, rfl⟩ := mem_seq.mp hm
    exact ⟨t₁, t₂, t₃, t₄, g₁, g₂, g₃, g₄, g₅, h₁, h₂, h₃, h₄, h₅, hg⟩
  · rintro ⟨t₁, t₂, t₃, t₄, g₁, g₂, g₃, g₄, g₅, h₁, h₂, h₃, h₄, h₅, rfl⟩
    exact mem_seq.mpr ⟨g₁, t₁, _, h₁, mem_seq.mpr ⟨g₂, t₂, _, h₂, mem_seq.mpr ⟨g₃, t₃, _, h₃,
      mem_seq.mpr ⟨g₄, t₄, g₅, h₄, h₅, rfl⟩, rfl⟩, rfl⟩, rfl⟩

/-- A name takes a character. -/
theorem isName_of_mem (h : (g, t) ∈ ways whole cutter s) : ∃ c ∈ s, isName c = true := by
  obtain ⟨t₁, t₂, t₃, t₄, g₁, g₂, g₃, g₄, g₅, h₁, h₂, h₃, -⟩ := mem_cutter.mp h
  obtain ⟨g', hplus, -⟩ := mem_group.mp h₃
  obtain ⟨g'', t', -, hchar, -⟩ := mem_seq.mp hplus
  obtain ⟨c, hc, -, ht₂⟩ := mem_char.mp hchar
  have hsuffix : t₂ <:+ s := (suffix_ways _ t₁ _ h₂).trans (suffix_ways _ s _ h₁)
  exact ⟨c, hsuffix.subset (by rw [ht₂]; simp), hc⟩

/-- A match has its name and what stands behind. -/
theorem groups_of_mem (h : (g, t) ∈ ways whole cutter s) : (∃ x, (1, x) ∈ g) ∧ ∃ x, (4, x) ∈ g := by
  obtain ⟨t₁, t₂, t₃, t₄, g₁, g₂, g₃, g₄, g₅, -, -, h₃, -, h₅, rfl⟩ := mem_cutter.mp h
  obtain ⟨g', -, hg₃⟩ := mem_group.mp h₃
  obtain ⟨g'', -, hg₅⟩ := mem_group.mp h₅
  dsimp only at hg₃ hg₅
  refine ⟨⟨t₂.take (t₂.length - t₃.length), ?_⟩, ⟨t₄.take (t₄.length - t.length), ?_⟩⟩
  · rw [hg₃]
    exact List.mem_append_right _ (List.mem_append_right _
      (List.mem_append_left _ List.mem_cons_self))
  · rw [hg₅]
    exact List.mem_append_right _ (List.mem_append_right _ (List.mem_append_right _
      (List.mem_append_right _ List.mem_cons_self)))

theorem lookup_isSome_of_mem {n : ℕ} (h : ∃ x, (n, x) ∈ g) : (g.lookup n).isSome = true := by
  obtain ⟨x, hx⟩ := h
  exact List.lookup_isSome_iff.mpr ⟨(n, x), hx, BEq.rfl⟩

/-- The end of a piece is an end also of the piece alone. -/
theorem local_delim {u : Text} (h : (g, t) ∈ ways whole Cutter.delim (u ++ t)) :
    (g, []) ∈ ways w Cutter.delim u := by
  obtain ⟨g', hseq, hg⟩ := mem_group.mp h
  obtain ⟨g₁, t₁, g₂, h₁, h₂, hg'⟩ := mem_seq.mp hseq
  obtain ⟨v, rfl⟩ := suffix_ways _ t₁ _ h₂
  have hfirst : (g₁, v) ∈ ways w (.star (.char isSpace)) u :=
    local_ways (by exact trivial) u v g₁ h₁
  have hsecond : (g₂, ([] : Text)) ∈ ways w (.alt
    (.seq (.plus (.char isDelim)) (.star (.char isSpace))) .stop) v := by
    rcases mem_alt.mp h₂ with h₂ | h₂
    · have hnostop : NoStop (.seq (.plus (.char isDelim)) (.star (.char isSpace))) :=
        ⟨⟨trivial, trivial⟩, trivial⟩
      exact mem_alt.mpr (.inl (local_ways hnostop v [] g₂ h₂))
    · refine mem_alt.mpr (.inr ?_)
      have hstop : (g₂, t) ∈ (if isStop whole (v ++ t) then [(([] : Groups), v ++ t)] else []) := h₂
      split_ifs at hstop
      · obtain ⟨rfl, ht⟩ := Prod.mk.inj (List.mem_singleton.mp hstop)
        have hv : v = [] := by
          have := congrArg List.length ht
          rw [List.length_append] at this
          exact List.length_eq_zero_iff.mp (by omega)
        subst hv
        exact List.mem_singleton_self _
      · cases hstop
  refine mem_group.mpr ⟨g', mem_seq.mpr ⟨g₁, v, g₂, hfirst, hsecond, hg'⟩, ?_⟩
  dsimp only at hg ⊢
  rw [hg, List.length_append, Nat.add_sub_cancel, List.take_left, List.length_nil, Nat.sub_zero,
    List.take_length]

/-- What was found is matched again. -/
theorem piece_isSome (h : (g, t) ∈ ways whole cutter (w ++ t)) : (piece w).isSome = true := by
  obtain ⟨t₁, t₂, t₃, t₄, g₁, g₂, g₃, g₄, g₅, h₁, h₂, h₃, h₄, h₅, hg⟩ := mem_cutter.mp h
  obtain ⟨x₄, rfl⟩ := suffix_ways _ t₄ _ h₅
  obtain ⟨y₃, rfl⟩ := suffix_ways _ t₃ _ h₄
  obtain ⟨y₂, rfl⟩ := suffix_ways _ t₂ _ h₃
  obtain ⟨y₁, rfl⟩ := suffix_ways _ t₁ _ h₂
  dsimp only at h₁ h₂ h₃ h₄ h₅
  simp only [← List.append_assoc] at h₁ h₂ h₃ h₄
  have hmem : (g, []) ∈ ways w cutter w := by
    refine mem_cutter.mpr ⟨_, _, _, x₄, g₁, g₂, g₃, g₄, g₅, local_ways ?_ w _ g₁ h₁,
      local_ways ?_ _ _ g₂ h₂, local_ways ?_ _ _ g₃ h₃, local_ways ?_ _ x₄ g₄ h₄,
      local_delim h₅, hg⟩
    · exact ⟨trivial, trivial⟩
    · exact trivial
    · exact ⟨trivial, trivial⟩
    · exact ⟨⟨trivial, ⟨trivial, ⟨⟨⟨trivial, trivial⟩, trivial⟩, trivial⟩⟩, trivial⟩, trivial⟩
  obtain ⟨groups, hgroups⟩ := Option.isSome_iff_exists.mp (fullMatch_isSome hmem)
  have hfound : ∃ t, (groups, t) ∈ ways w cutter w := by
    unfold fullMatch at hgroups
    obtain ⟨m, hm, rfl⟩ := Option.map_eq_some_iff.mp hgroups
    exact ⟨m.2, List.mem_of_find?_eq_some hm⟩
  obtain ⟨t', ht'⟩ := hfound
  obtain ⟨x₁, hx₁⟩ := Option.isSome_iff_exists.mp (lookup_isSome_of_mem (groups_of_mem ht').1)
  obtain ⟨x₂, hx₂⟩ := Option.isSome_iff_exists.mp (lookup_isSome_of_mem (groups_of_mem ht').2)
  unfold piece
  rw [hgroups]
  simp only [Option.bind_eq_bind, Option.bind_some, hx₁, hx₂]
  rfl

/-- What is found in a text is a piece. -/
theorem piece_of_mem_findAll : ∀ {n : ℕ} {s : Text}, ∀ w ∈ findAll whole cutter n s,
    (piece w).isSome = true
  | 0, s, w, h => by cases h
  | n + 1, s, w, h => by
    rw [findAll] at h
    split at h
    · cases h
    · next w' t hfind =>
      rcases List.mem_cons.mp h with rfl | h
      · obtain ⟨pre, g, -, hmem⟩ := find_eq_some hfind
        exact piece_isSome hmem
      · exact piece_of_mem_findAll w h

/-- Pieces are read without a failure, and one of them is the last. -/
theorem foldlM_readPiece : ∀ {ps : List Text}, (∀ w ∈ ps, (piece w).isSome = true) → ∀ r : Reading,
    ∃ r', ps.foldlM readPiece r = .ok r' ∧ (r'.prev = none ↔ r.prev = none ∧ ps = [])
  | [], _, r => ⟨r, rfl, by simp⟩
  | w :: ps, h, r => by
    obtain ⟨⟨name, value, sep⟩, hpiece⟩ := Option.isSome_iff_exists.mp (h w (by simp))
    have hone : ∃ r', readPiece r w = .ok r' ∧ r'.prev ≠ none := by
      unfold readPiece
      rw [hpiece]
      dsimp only
      split
      · exact ⟨_, rfl, by simp⟩
      · split_ifs
        · exact ⟨_, rfl, by simp⟩
        · exact ⟨_, rfl, by simp⟩
    obtain ⟨r₁, hr₁, hprev⟩ := hone
    have hps : ∀ w' ∈ ps, (piece w').isSome = true :=
      fun w' hw' => h w' (List.mem_cons_of_mem w hw')
    obtain ⟨r', hfold, hiff⟩ := foldlM_readPiece hps r₁
    refine ⟨r', ?_, ?_⟩
    · rw [List.foldlM_cons, hr₁]
      exact hfold
    · rw [hiff]
      exact ⟨fun h => absurd h.1 hprev, fun h => absurd h.2 (List.cons_ne_nil w ps)⟩

/-- Where a delimiter can stand. -/
theorem exists_delim {u : Text} (h : u = [] ∨ ∃ c r, u = c :: r ∧ isDelim c = true) :
    ∃ g t, (g, t) ∈ ways whole Cutter.delim u := by
  have hspaces : ([], u) ∈ ways whole (.star (.char isSpace)) u := self_mem_star
  rcases h with rfl | ⟨c, r, rfl, hc⟩
  · have hstop : ([], []) ∈ ways whole (.seq (.star (.char isSpace))
        (.alt (.seq (.plus (.char isDelim)) (.star (.char isSpace))) .stop)) [] :=
      mem_seq.mpr ⟨[], [], [], hspaces, mem_alt.mpr (.inr (List.mem_singleton_self _)), rfl⟩
    exact ⟨[(4, [])], [], mem_group.mpr ⟨[], hstop, rfl⟩⟩
  · have hplus : ([], r) ∈ ways whole (.plus (.char isDelim)) (c :: r) :=
      mem_seq.mpr ⟨[], r, [], mem_char.mpr ⟨c, hc, rfl, rfl⟩, self_mem_star, rfl⟩
    have hdelims : ([], r) ∈ ways whole (.seq (.plus (.char isDelim)) (.star (.char isSpace)))
      (c :: r) :=
      mem_seq.mpr ⟨[], r, [], hplus, self_mem_star, rfl⟩
    have hdelim : ([], r) ∈ ways whole (.seq (.star (.char isSpace))
        (.alt (.seq (.plus (.char isDelim)) (.star (.char isSpace))) .stop)) (c :: r) :=
      mem_seq.mpr ⟨[], c :: r, [], hspaces, mem_alt.mpr (.inl hdelims), rfl⟩
    exact ⟨[(4, (c :: r).take ((c :: r).length - r.length))], r, mem_group.mpr ⟨[], hdelim, rfl⟩⟩

/-- Characters of a class, up to the first other. -/
theorem exists_run (p : Char → Bool) (s : Text) :
    ∃ w t, s = w ++ t ∧ (∀ c ∈ w, p c = true) ∧ Ends p t := by
  refine ⟨s.takeWhile p, s.dropWhile p, List.takeWhile_append_dropWhile.symm, fun c hc => ?_,
    fun c hc => ?_⟩
  · exact List.all_eq_true.mp List.all_takeWhile c hc
  · have hhead := List.head?_dropWhile_not p s
    rw [Option.mem_def] at hc
    rw [hc] at hhead
    exact hhead

/-- The expression matches from a name on. -/
theorem exists_cutter {t : Text} (hw : w ≠ []) (hname : ∀ c ∈ w, isName c = true)
    (ht : Ends isName t) :
    ∃ g u, (g, u) ∈ ways whole cutter (w ++ t) := by
  have hvalue : ∃ g u, (g, u) ∈ ways whole Cutter.value t ∧
    (u = [] ∨ ∃ c r, u = c :: r ∧ isDelim c = true) := by
    cases t with
    | nil => exact ⟨[], [], mem_alt.mpr (.inr (List.mem_singleton_self _)), .inl rfl⟩
    | cons c r =>
      have hc := ht c rfl
      by_cases heq : c = '='
      · subst heq
        obtain ⟨v, u, rfl, hv, hu⟩ := exists_run isPlain r
        have hchars : ([], u) ∈ ways whole (.star (.char isPlain)) (v ++ u) :=
          (first_chars hv hu).mem
        have hplain : ([(3, (v ++ u).take ((v ++ u).length - u.length))], u) ∈ ways whole
          Cutter.plain (v ++ u) :=
          mem_group.mpr ⟨[], hchars, rfl⟩
        refine ⟨_, u,
          mem_alt.mpr (.inl (mem_seq.mpr ⟨[], v ++ u, _, mem_char.mpr ⟨'=', rfl, rfl, rfl⟩,
            mem_alt.mpr (.inr hplain), rfl⟩)), ?_⟩
        cases u with
        | nil => exact .inl rfl
        | cons d u =>
          refine .inr ⟨d, u, rfl, ?_⟩
          have hd := hu d rfl
          simp only [isPlain, Bool.and_eq_false_iff, bne_eq_false_iff_eq] at hd
          simpa [isDelim] using hd
      · refine ⟨[], c :: r, mem_alt.mpr (.inr (List.mem_singleton_self _)), .inr ⟨c, r, rfl, ?_⟩⟩
        simp only [isName, Bool.and_eq_false_iff, bne_eq_false_iff_eq] at hc
        rcases hc with rfl | rfl
        · rfl
        · exact absurd rfl heq
  obtain ⟨g₄, u, hmem, hu⟩ := hvalue
  obtain ⟨g₅, u', hdelim⟩ : ∃ g t, (g, t) ∈ ways whole Cutter.delim u := exists_delim hu
  have hplus : ([], t) ∈ ways whole (.plus (.char isName)) (w ++ t) :=
    (first_chars_plus hw hname ht).mem
  have hgroup : ([(1, (w ++ t).take ((w ++ t).length - t.length))], t) ∈ ways whole
    Cutter.name (w ++ t) :=
    mem_group.mpr ⟨[], hplus, rfl⟩
  exact ⟨_, u', mem_cutter.mpr ⟨_, _, t, u, [], [], _, g₄, g₅, self_mem_star, self_mem_star,
    hgroup, hmem, hdelim, rfl⟩⟩

/-- Nothing is found exactly in a text of `;` and `=`. -/
theorem find_cutter_eq_none : find whole cutter s = none ↔ ∀ c ∈ s, isName c = false := by
  rw [find_eq_none]
  constructor
  · intro h c hc
    rw [← Bool.not_eq_true]
    intro hname
    obtain ⟨pre, post, rfl⟩ := List.append_of_mem hc
    obtain ⟨w, t, hrun, hw, ht⟩ := exists_run isName (c :: post)
    have hne : w ≠ [] := by
      rintro rfl
      rw [List.nil_append] at hrun
      have := ht c (by rw [← hrun]; rfl)
      rw [hname] at this
      cases this
    obtain ⟨g, u, hmem⟩ : ∃ g u, (g, u) ∈ ways whole cutter (w ++ t) := exists_cutter hne hw ht
    rw [← hrun, h (c :: post) (List.suffix_append pre _)] at hmem
    cases hmem
  · intro h t ht
    rw [List.eq_nil_iff_forall_not_mem]
    rintro ⟨g, u⟩ hmem
    obtain ⟨c, hc, hname⟩ := isName_of_mem hmem
    rw [h c (ht.subset hc)] at hname
    cases hname

/-- A header is read, or there is nothing in it but `;` and `=`. -/
theorem readPairs_eq (cstr : Text) : (∃ p ps, readPairs cstr = .ok (p :: ps)) ∧
    (∃ c ∈ cstr, isName c = true) ∨
    readPairs cstr = .error (.parsing cstr) ∧ ∀ c ∈ cstr, isName c = false := by
  have hpieces : ∀ w ∈ findAllIn cutter cstr, (piece w).isSome = true :=
    fun w hw => piece_of_mem_findAll w hw
  obtain ⟨r, hfold, hprev⟩ := foldlM_readPiece hpieces ⟨[], none⟩
  unfold readPairs
  rw [hfold]
  dsimp only
  by_cases hnone : find cstr cutter cstr = none
  · have hnil : findAllIn cutter cstr = [] := by
      unfold findAllIn
      rw [findAll, hnone]
    rw [hprev.mpr ⟨rfl, hnil⟩]
    exact .inr ⟨rfl, find_cutter_eq_none.mp hnone⟩
  · obtain ⟨⟨w, t⟩, hfind⟩ := Option.ne_none_iff_exists'.mp hnone
    have hne : findAllIn cutter cstr ≠ [] := by
      unfold findAllIn
      rw [findAll, hfind]
      exact List.cons_ne_nil _ _
    have hsome : r.prev ≠ none := fun h => hne (hprev.mp h).2
    obtain ⟨⟨n, v, sep⟩, hr⟩ := Option.ne_none_iff_exists'.mp hsome
    rw [hr]
    dsimp only
    refine .inl ⟨?_, ?_⟩
    · obtain ⟨p, ps, hps⟩ := List.exists_cons_of_ne_nil (l := ((n, v) :: r.pairs).reverse) (by simp)
      exact ⟨p, ps, by rw [hps]⟩
    · by_contra hall
      refine hnone (find_cutter_eq_none.mpr fun c hc => ?_)
      rw [← Bool.not_eq_true]
      exact fun hname => hall ⟨c, hc, hname⟩

/-- **A header is refused exactly when there is nothing in it but `;` and `=`**,
and never for another reason. -/
theorem fromCookies_eq_error_iff (parseDate : Text → Option ℤ) (now : ℤ) (cstr : Text)
    (e : Failure) :
    fromCookies parseDate now cstr = .error e ↔
      e = .parsing cstr ∧ ∀ c ∈ cstr, c = ';' ∨ c = '=' := by
  have hname : ∀ c : Char, isName c = false ↔ c = ';' ∨ c = '=' := by
    intro c
    unfold isName
    rw [Bool.and_eq_false_iff, bne_eq_false_iff_eq, bne_eq_false_iff_eq]
  unfold fromCookies
  rcases readPairs_eq cstr with ⟨⟨⟨n, v⟩, ps, hok⟩, c, hc, hne⟩ | ⟨herror, hall⟩
  · rw [hok]
    refine ⟨fun h => (nomatch h), fun h => ?_⟩
    have := (hname c).mpr (h.2 c hc)
    rw [hne] at this
    cases this
  · rw [herror]
    refine ⟨fun h => ⟨(Except.error.inj h).symm, fun c hc => (hname c).mp (hall c hc)⟩, fun h => ?_⟩
    rw [h.1]

end Refused

end ServeD.Web.Cookies
