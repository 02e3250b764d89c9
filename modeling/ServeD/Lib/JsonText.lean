import ServeD.Lib.Integers
import ServeD.Lib.Texts

/-! # JSON texts

The grammar of JSON as a relation: `Reads i s r` says that `s` begins with the item `i` and that `r`
is what follows it. A string of JSON is read as its UTF-16 code units, since an escape stands for
one of them. Items are read in the same way whatever stands behind them (`Reads.frame`,
`Reads.cut`), so a value can be taken out of a longer text and put into another one. -/

namespace ServeD.Lib.JsonText

open ServeD.Lib.Texts

inductive Json where
  | null
  | bool (b : Bool)
  /-- the number as it is written -/
  | number (token : Text)
  | string (units : List ℕ)
  | array (vs : List Json)
  | object (ms : List (List ℕ × Json))

/-! ### The grammar -/

def isWs (c : Char) : Bool := c == ' ' || c == '\t' || c == '\n' || c == '\r'

def skipWs (s : Text) : Text := s.dropWhile isWs

/-- The character stands for itself in a string. -/
def PlainChar (c : Char) : Prop := c ≠ '"' ∧ c ≠ '\\' ∧ 0x20 ≤ c.toNat

/-- The text needs no escapes in a string. -/
def Plain (s : Text) : Prop := ∀ c ∈ s, PlainChar c

instance : DecidablePred PlainChar := fun c =>
    inferInstanceAs (Decidable (c ≠ '"' ∧ c ≠ '\\' ∧ 0x20 ≤ c.toNat))

instance : DecidablePred Plain := fun s => List.decidableBAll PlainChar s

/-- What stands for itself, or for a control character, behind a backslash. -/
def unescape : Char → Option ℕ
  | '"' => some 0x22
  | '\\' => some 0x5c
  | '/' => some 0x2f
  | 'b' => some 0x08
  | 'f' => some 0x0c
  | 'n' => some 0x0a
  | 'r' => some 0x0d
  | 't' => some 0x09
  | _ => none

def hexDigit (c : Char) : Option ℕ :=
  if '0' ≤ c ∧ c ≤ '9' then some (c.toNat - 0x30)
  else if 'a' ≤ c ∧ c ≤ 'f' then some (c.toNat - 0x57)
  else if 'A' ≤ c ∧ c ≤ 'F' then some (c.toNat - 0x37)
  else none

def hex4 (a b c d : Char) : Option ℕ := do
  let w ← hexDigit a
  let x ← hexDigit b
  let y ← hexDigit c
  let z ← hexDigit d
  return ((w * 16 + x) * 16 + y) * 16 + z

/-- The rest of a string after its opening quote, with its units. -/
inductive Chars : List ℕ → Text → Text → Prop where
  | close : Chars [] ('"' :: r) r
  | plain : PlainChar c → Chars u s r → Chars (units c ++ u) (c :: s) r
  | escape : unescape c = some n → Chars u s r → Chars (n :: u) ('\\' :: c :: s) r
  | unicode : hex4 a b c d = some n → Chars u s r →
    Chars (n :: u) ('\\' :: 'u' :: a :: b :: c :: d :: s) r

def Digits (s : Text) : Prop := s ≠ [] ∧ ∀ c ∈ s, c.isDigit = true

/-- The integer part of a number has no leading zeros. -/
def IsInteger (s : Text) : Prop := s = ['0'] ∨ (Digits s ∧ s.head? ≠ some '0')

def IsFraction (s : Text) : Prop := s = [] ∨ ∃ ds, Digits ds ∧ s = '.' :: ds

def IsExponent (s : Text) : Prop :=
  s = [] ∨ ∃ e sign ds, (e = 'e' ∨ e = 'E') ∧ (sign = [] ∨ sign = ['+'] ∨ sign = ['-']) ∧
    Digits ds ∧
    s = e :: (sign ++ ds)

def IsNumber (s : Text) : Prop :=
  ∃ sign int frac exp, (sign = [] ∨ sign = ['-']) ∧ IsInteger int ∧ IsFraction frac ∧
    IsExponent exp ∧
    s = sign ++ (int ++ (frac ++ exp))

/-- What is read: a value, or the rest of an array or object from its first element or
member to the bracket. -/
inductive Item where
  | value (v : Json)
  | elements (vs : List Json)
  | members (ms : List (List ℕ × Json))

inductive Reads : Item → Text → Text → Prop where
  | null : Reads (.value .null) ('n' :: 'u' :: 'l' :: 'l' :: r) r
  | true : Reads (.value (.bool true)) ('t' :: 'r' :: 'u' :: 'e' :: r) r
  | false : Reads (.value (.bool false)) ('f' :: 'a' :: 'l' :: 's' :: 'e' :: r) r
  | number : IsNumber n → Reads (.value (.number n)) (n ++ r) r
  | string : Chars u s r → Reads (.value (.string u)) ('"' :: s) r
  | emptyArray : skipWs s = ']' :: r → Reads (.value (.array [])) ('[' :: s) r
  | array : Reads (.elements vs) s r → Reads (.value (.array vs)) ('[' :: s) r
  | emptyObject : skipWs s = '}' :: r → Reads (.value (.object [])) ('{' :: s) r
  | object : Reads (.members ms) s r → Reads (.value (.object ms)) ('{' :: s) r
  | last : Reads (.value v) (skipWs s) t → skipWs t = ']' :: r → Reads (.elements [v]) s r
  | element : Reads (.value v) (skipWs s) t → skipWs t = ',' :: t' → Reads (.elements vs) t' r →
      Reads (.elements (v :: vs)) s r
  | lastMember : skipWs s = '"' :: s' → Chars name s' t → skipWs t = ':' :: t' →
    Reads (.value v) (skipWs t') q →
      skipWs q = '}' :: r → Reads (.members [(name, v)]) s r
  | member : skipWs s = '"' :: s' → Chars name s' t → skipWs t = ':' :: t' →
    Reads (.value v) (skipWs t') q →
      skipWs q = ',' :: q' → Reads (.members ms) q' r → Reads (.members ((name, v) :: ms)) s r

/-- A JSON text and its value. -/
def Denotes (body : Text) (v : Json) : Prop := ∃ r, Reads (.value v) (skipWs body) r ∧ skipWs r = []

/-- Between brackets, the text is an array. -/
def Listed (s : Text) : Prop := ∃ vs, Reads (.value (.array vs)) ('[' :: (s ++ [']'])) []

/-! ### What stands behind an item -/

section Frame

variable {s t r : Text}

theorem skipWs_append (h : skipWs s ≠ []) : skipWs (s ++ t) = skipWs s ++ t := by
  rw [skipWs, List.dropWhile_append, if_neg (by simpa [skipWs] using h)]
  rfl

theorem skipWs_append_cons {c : Char} (h : skipWs s = c :: r) :
    skipWs (s ++ t) = c :: (r ++ t) := by
  rw [skipWs_append (by simp [h]), h, List.cons_append]

/-- Blanks before a text stand before every beginning of it. -/
theorem exists_of_skipWs {x y : Text} (h : skipWs x = y ++ t) (hy : y ≠ []) :
    ∃ s, x = s ++ t ∧ skipWs s = y := by
  have hx : x = (x.takeWhile isWs ++ y) ++ t := by
    rw [List.append_assoc, ← h]
    exact List.takeWhile_append_dropWhile.symm
  refine ⟨_, hx, ?_⟩
  rcases hs : skipWs (x.takeWhile isWs ++ y) with _ | ⟨c, s⟩
  · have hlen := congrArg List.length h
    have hshort : skipWs x = skipWs t := by
      rw [hx, skipWs, List.dropWhile_append]
      exact if_pos (by simpa [skipWs] using hs)
    have hle := (List.dropWhile_suffix isWs (l := t)).length_le
    have hpos := List.length_pos_of_ne_nil hy
    rw [hshort, List.length_append] at hlen
    change (skipWs t).length ≤ t.length at hle
    omega
  · have heq := skipWs_append_cons (t := t) hs
    rw [← hx, h] at heq
    exact (List.append_cancel_right (heq.trans (List.cons_append ..).symm)).symm

theorem IsNumber.ne_nil {n : Text} (h : IsNumber n) : n ≠ [] := by
  obtain ⟨sign, int, frac, exp, -, hint, -, -, rfl⟩ := h
  rcases hint with rfl | ⟨⟨hne, -⟩, -⟩
  · simp
  · simp [hne]

theorem Reads.ne_nil {i : Item} (h : Reads i s r) : s ≠ [] := by
  induction h with
  | number hn => simp [hn.ne_nil]
  | last _ _ ih | element _ _ _ ih =>
    rintro rfl
    exact ih rfl
  | lastMember hs | member hs =>
    rintro rfl
    cases hs
  | _ => exact List.cons_ne_nil _ _

theorem Chars.frame {u : List ℕ} (h : Chars u s r) (t : Text) : Chars u (s ++ t) (r ++ t) := by
  induction h with
  | close => exact .close
  | plain hc _ ih => exact .plain hc ih
  | escape hc _ ih => exact .escape hc ih
  | unicode hx _ ih => exact .unicode hx ih

theorem Chars.unframe {u : List ℕ} (h : Chars u s (r ++ t)) : ∃ x, s = x ++ t ∧ Chars u x r := by
  generalize hy : r ++ t = y at h
  induction h with
  | close => exact ⟨'"' :: r, by rw [← hy]; rfl, .close⟩
  | plain hc _ ih =>
    obtain ⟨x, rfl, hx⟩ := ih hy
    exact ⟨_ :: x, rfl, .plain hc hx⟩
  | escape hc _ ih =>
    obtain ⟨x, rfl, hx⟩ := ih hy
    exact ⟨_ :: _ :: x, rfl, .escape hc hx⟩
  | unicode hn _ ih =>
    obtain ⟨x, rfl, hx⟩ := ih hy
    exact ⟨_ :: _ :: _ :: _ :: _ :: _ :: x, rfl, .unicode hn hx⟩

/-- An item is read whatever stands behind it. -/
theorem Reads.frame {i : Item} (h : Reads i s r) (t : Text) : Reads i (s ++ t) (r ++ t) := by
  induction h with
  | null => exact .null
  | true => exact .true
  | false => exact .false
  | number hn =>
    rw [List.append_assoc]
    exact .number hn
  | string hs => exact .string (hs.frame t)
  | emptyArray hs => exact .emptyArray (skipWs_append_cons hs)
  | array _ ih => exact .array ih
  | emptyObject hs => exact .emptyObject (skipWs_append_cons hs)
  | object _ ih => exact .object ih
  | last hv ht ih =>
    rw [← skipWs_append hv.ne_nil] at ih
    exact .last ih (skipWs_append_cons ht)
  | element hv ht _ ih ih' =>
    rw [← skipWs_append hv.ne_nil] at ih
    exact .element ih (skipWs_append_cons ht) ih'
  | lastMember hs hc ht hv hq ih =>
    rw [← skipWs_append hv.ne_nil] at ih
    exact .lastMember (skipWs_append_cons hs) (hc.frame t) (skipWs_append_cons ht) ih
      (skipWs_append_cons hq)
  | member hs hc ht hv hq _ ih ih' =>
    rw [← skipWs_append hv.ne_nil] at ih
    exact .member (skipWs_append_cons hs) (hc.frame t) (skipWs_append_cons ht) ih
      (skipWs_append_cons hq) ih'

/-- What stands behind all that is read is not looked at. -/
theorem Reads.unframe {i : Item} (h : Reads i s (r ++ t)) : ∃ x, s = x ++ t ∧ Reads i x r := by
  have value : ∀ {v : Json} {x r : Text}, (∃ z, skipWs x = z ++ t ∧ Reads (.value v) z r) →
      ∃ z, x = z ++ t ∧ Reads (.value v) (skipWs z) r := by
    rintro v x r ⟨z, hz, hv⟩
    obtain ⟨x, hx, rfl⟩ := exists_of_skipWs hz hv.ne_nil
    exact ⟨x, hx, hv⟩
  have blank : ∀ {c : Char} {x r : Text}, skipWs x = c :: (r ++ t) → ∃ z, x = z ++ t ∧
    skipWs z = c :: r :=
    fun hx => exists_of_skipWs hx (List.cons_ne_nil _ _)
  generalize hy : r ++ t = y at h
  induction h generalizing r with
  | null => exact ⟨_, by rw [← hy]; rfl, .null⟩
  | true => exact ⟨_, by rw [← hy]; rfl, .true⟩
  | false => exact ⟨_, by rw [← hy]; rfl, .false⟩
  | number hn => exact ⟨_, by rw [← hy, ← List.append_assoc], .number hn⟩
  | string hs =>
    subst hy
    obtain ⟨x, rfl, hx⟩ := hs.unframe
    exact ⟨'"' :: x, rfl, .string hx⟩
  | emptyArray hs =>
    subst hy
    obtain ⟨x, rfl, hx⟩ := blank hs
    exact ⟨'[' :: x, rfl, .emptyArray hx⟩
  | array _ ih =>
    obtain ⟨x, rfl, hx⟩ := ih hy
    exact ⟨'[' :: x, rfl, .array hx⟩
  | emptyObject hs =>
    subst hy
    obtain ⟨x, rfl, hx⟩ := blank hs
    exact ⟨'{' :: x, rfl, .emptyObject hx⟩
  | object _ ih =>
    obtain ⟨x, rfl, hx⟩ := ih hy
    exact ⟨'{' :: x, rfl, .object hx⟩
  | last hv ht ih =>
    subst hy
    obtain ⟨x, rfl, hx⟩ := blank ht
    obtain ⟨z, rfl, hz⟩ := value (ih rfl)
    exact ⟨z, rfl, .last hz hx⟩
  | element hv ht _ ih ih' =>
    obtain ⟨x', rfl, hx'⟩ := ih' hy
    obtain ⟨x, rfl, hx⟩ := blank ht
    obtain ⟨z, rfl, hz⟩ := value (ih rfl)
    exact ⟨z, rfl, .element hz hx hx'⟩
  | lastMember hs hc ht hv hq ih =>
    subst hy
    obtain ⟨q, rfl, hq'⟩ := blank hq
    obtain ⟨z, rfl, hz⟩ := value (ih rfl)
    obtain ⟨x, rfl, hx⟩ := blank ht
    obtain ⟨n, rfl, hn⟩ := hc.unframe
    obtain ⟨m, rfl, hm⟩ := blank hs
    exact ⟨m, rfl, .lastMember hm hn hx hz hq'⟩
  | member hs hc ht hv hq _ ih ih' =>
    obtain ⟨y, rfl, hy'⟩ := ih' hy
    obtain ⟨q, rfl, hq'⟩ := blank hq
    obtain ⟨z, rfl, hz⟩ := value (ih rfl)
    obtain ⟨x, rfl, hx⟩ := blank ht
    obtain ⟨n, rfl, hn⟩ := hc.unframe
    obtain ⟨m, rfl, hm⟩ := blank hs
    exact ⟨m, rfl, .member hm hn hx hz hq' hy'⟩

theorem Reads.cut {i : Item} (h : Reads i (s ++ t) (r ++ t)) : Reads i s r := by
  obtain ⟨x, hx, hread⟩ := h.unframe
  rwa [List.append_cancel_right hx]

theorem Reads.suffix {i : Item} (h : Reads i s r) : r <:+ s := by
  obtain ⟨x, hx, -⟩ := Reads.unframe (r := []) (t := r) h
  exact ⟨x, hx.symm⟩

end Frame

/-! ### Strings -/

section Strings

variable {s t r : Text} {u : List ℕ}

theorem length_units_pos (c : Char) : 0 < (units c).length := by
  rw [units]
  split_ifs <;> simp

theorem plain_append : Plain (s ++ t) ↔ Plain s ∧ Plain t := List.forall_mem_append

/-- A plain text is read as it stands. -/
theorem Plain.chars (h : Plain s) (r : Text) : Chars (utf16 s) (s ++ '"' :: r) r := by
  induction s with
  | nil => exact .close
  | cons c s ih =>
    rw [utf16_cons, List.cons_append]
    exact .plain (h c List.mem_cons_self) (ih fun d hd => h d (List.mem_cons_of_mem c hd))

theorem Plain.eq_of_chars (h : Plain s) (hread : Chars u (s ++ '"' :: t) r) :
    u = utf16 s ∧ r = t := by
  induction s generalizing u with
  | nil =>
    cases hread with
    | close => exact ⟨rfl, rfl⟩
    | plain hc => exact absurd rfl hc.1
  | cons c s ih =>
    obtain ⟨hquote, hslash, hcontrol⟩ := h c List.mem_cons_self
    rw [List.cons_append] at hread
    generalize hy : s ++ '"' :: t = y at hread
    cases hread with
    | close => exact absurd rfl hquote
    | plain _ hs =>
      subst hy
      obtain ⟨rfl, rfl⟩ := ih (fun d hd => h d (List.mem_cons_of_mem c hd)) hs
      exact ⟨rfl, rfl⟩
    | escape => exact absurd rfl hslash
    | unicode => exact absurd rfl hslash

/-- A string does not have more units than it is written with,
and has less if there is an escape. -/
theorem Chars.raw (h : Chars u s r) : ∃ raw, s = raw ++ '"' :: r ∧ u.length ≤ (utf16 raw).length ∧
    ((utf16 raw).length ≤ u.length → Plain raw) := by
  induction h with
  | close => exact ⟨[], rfl, Nat.le_refl 0, fun _ _ hc => absurd hc List.not_mem_nil⟩
  | @plain c u s r hc _ ih =>
    obtain ⟨raw, rfl, hle, hplain⟩ := ih
    refine ⟨c :: raw, rfl, ?_, fun hge => ?_⟩
    · rw [utf16_cons, List.length_append, List.length_append]
      omega
    · rw [utf16_cons, List.length_append, List.length_append] at hge
      exact List.forall_mem_cons.mpr ⟨hc, hplain (by omega)⟩
  | @escape c n u s r hc _ ih =>
    obtain ⟨raw, rfl, hle, -⟩ := ih
    have hslash := length_units_pos '\\'
    have hpos := length_units_pos c
    refine ⟨'\\' :: c :: raw, rfl, ?_, fun hge => ?_⟩
    · rw [utf16_cons, utf16_cons, List.length_append, List.length_append, List.length_cons]
      omega
    · rw [utf16_cons, utf16_cons, List.length_append, List.length_append, List.length_cons] at hge
      omega
  | @unicode a b c d n u s r hx _ ih =>
    obtain ⟨raw, rfl, hle, -⟩ := ih
    have hslash := length_units_pos '\\'
    have hu := length_units_pos 'u'
    refine ⟨'\\' :: 'u' :: a :: b :: c :: d :: raw, rfl, ?_, fun hge => ?_⟩
    · simp only [utf16_cons, List.length_append, List.length_cons]
      omega
    · simp only [utf16_cons, List.length_append, List.length_cons] at hge
      omega

/-- The digits of an escape. -/
theorem exists_of_hex4 {a b c d : Char} {n : ℕ} (h : hex4 a b c d = some n) :
    ∀ x ∈ [a, b, c, d], ∃ m, hexDigit x = some m := by
  simp only [hex4, Option.bind_eq_bind, Option.bind_eq_some_iff] at h
  obtain ⟨w, hw, x, hx, y, hy, z, hz, -⟩ := h
  simp [hw, hx, hy, hz]

/-- What is no character of an escape with digits stands behind it. -/
theorem exists_behind_unicode {a b c d x : Char} {n : ℕ} {w z : Text} (h : hex4 a b c d = some n)
    (hx : hexDigit x = none) (hslash : x ≠ '\\') (hu : x ≠ 'u')
    (heq : '\\' :: 'u' :: a :: b :: c :: d :: s = w ++ x :: z) :
    ∃ w', w = '\\' :: 'u' :: a :: b :: c :: d :: w' ∧ s = w' ++ x :: z := by
  have hdigit : ∀ y ∈ [a, b, c, d], y ≠ x := by
    rintro y hy rfl
    obtain ⟨m, hm⟩ := exists_of_hex4 h y hy
    rw [hx] at hm
    cases hm
  simp only [List.mem_cons, List.not_mem_nil, or_false, forall_eq_or_imp, forall_eq] at hdigit
  obtain ⟨ha, hb, hc, hd⟩ := hdigit
  rcases w with _ | ⟨w₁, _ | ⟨w₂, _ | ⟨w₃, _ | ⟨w₄, _ | ⟨w₅, _ | ⟨w₆, w⟩⟩⟩⟩⟩⟩
  all_goals simp only [List.cons_append, List.nil_append, List.cons.injEq] at heq
  · exact absurd heq.1.symm hslash
  · exact absurd heq.2.1.symm hu
  · exact absurd heq.2.2.1 ha
  · exact absurd heq.2.2.2.1 hb
  · exact absurd heq.2.2.2.2.1 hc
  · exact absurd heq.2.2.2.2.2.1 hd
  · obtain ⟨rfl, rfl, rfl, rfl, rfl, rfl, rfl⟩ := heq
    exact ⟨w, rfl, rfl⟩

/-- A string ends at the latest with the next quote after a blank: this quote is not escaped. -/
theorem Chars.length_le (h : Chars u s r) : ∀ w z, s = w ++ ' ' :: '"' :: z →
    z.length ≤ r.length := by
  induction h with
  | close =>
    rintro w z hs
    rcases w with _ | ⟨c, w⟩
    · cases hs
    · rw [List.cons_append] at hs
      obtain ⟨-, rfl⟩ := List.cons.inj hs
      simp only [List.length_append, List.length_cons]
      omega
  | plain hc hchars ih =>
    rintro w z hs
    rcases w with _ | ⟨c, w⟩
    · obtain ⟨rfl, rfl⟩ := List.cons.inj hs
      cases hchars with
      | close => exact Nat.le_refl _
      | plain hquote => exact absurd rfl hquote.1
    · exact ih w z (List.cons.inj hs).2
  | escape hc _ ih =>
    rintro w z hs
    rcases w with _ | ⟨c, _ | ⟨d, w⟩⟩
    · cases hs
    · obtain ⟨-, htail⟩ := List.cons.inj hs
      obtain ⟨rfl, -⟩ := List.cons.inj htail
      cases hc
    · exact ih w z (List.cons.inj (List.cons.inj hs).2).2
  | unicode hx _ ih =>
    rintro w z hs
    obtain ⟨w', -, hs'⟩ := exists_behind_unicode hx (by decide) (by decide) (by decide) hs
    exact ih w' z hs'

theorem Chars.suffix_of_blank (h : Chars u s r) (w z : Text) (hs : s = w ++ ' ' :: '"' :: z) :
    z <:+ r := by
  obtain ⟨raw, hraw, -, -⟩ := h.raw
  have hz : z <:+ s := ⟨w ++ [' ', '"'], by simp [hs]⟩
  have hr : r <:+ s := ⟨raw ++ ['"'], by simp [hraw]⟩
  exact List.suffix_of_suffix_length_le hz hr (h.length_le w z hs)

/-- A text between quotes that is read back is plain, unless it ends with an escape of
the second quote. -/
theorem Chars.plain_or (h : Chars (utf16 s) (s ++ '"' :: ',' :: ' ' :: '"' :: t) r) :
    (Plain s ∧ r = ',' :: ' ' :: '"' :: t) ∨ r = t := by
  have hle := h.length_le (s ++ ['"', ',']) t (by simp)
  obtain ⟨raw, hraw, hlen, hplain⟩ := h.raw
  rcases List.append_eq_append_iff.mp hraw with ⟨a, rfl, ha⟩ | ⟨a, rfl, ha⟩
  · -- the string goes on behind the text
    rcases a with _ | ⟨x, a⟩
    · rw [List.append_nil] at hplain
      exact .inl ⟨hplain (Nat.le_refl _), (List.cons.inj ha).2.symm⟩
    · rw [List.cons_append] at ha
      obtain ⟨-, htail⟩ := List.cons.inj ha
      rcases a with _ | ⟨y, _ | ⟨z, a⟩⟩
      · cases htail
      · cases htail
      · simp only [List.cons_append, List.cons.injEq] at htail
        obtain ⟨-, -, htail⟩ := htail
        have hsum := congrArg List.length htail
        simp only [List.length_append, List.length_cons] at hsum
        obtain rfl : a = [] := List.length_eq_zero_iff.mp (by omega)
        exact .inr (List.cons.inj htail).2.symm
  · rcases a with _ | ⟨x, a⟩
    · rw [List.append_nil] at hlen hplain ⊢
      exact .inl ⟨hplain (Nat.le_refl _), (List.cons.inj ha).2⟩
    · have hpos := length_units_pos x
      rw [utf16_append, utf16_cons, List.length_append, List.length_append] at hlen
      omega

end Strings

/-! ### Members

A member with a plain name, and the last one of an object. -/

section Last

variable {s t r : Text} {c : Char}

theorem skipWs_append_of_nil (h : skipWs s = []) : skipWs (s ++ t) = skipWs t := by
  rw [skipWs, List.dropWhile_append, if_pos (by simpa [skipWs] using h)]
  rfl

theorem mem_skipWs (h : c ∈ s) (hc : ¬ isWs c) : c ∈ skipWs s := by
  induction s with
  | nil => exact h
  | cons d s ih =>
    rw [skipWs, List.dropWhile_cons]
    split_ifs with hd
    · refine ih ((List.mem_cons.mp h).resolve_left ?_)
      rintro rfl
      exact hc hd
    · exact h

theorem Reads.member_inv {w x : Text} {ms : List (List ℕ × Json)} (hw : Plain w)
    (hs : skipWs s = '"' :: (w ++ '"' :: ':' :: x)) (h : Reads (.members ms) s r) :
    ∃ v ms', ms = (utf16 w, v) :: ms' ∧ ∃ q, Reads (.value v) (skipWs x) q ∧
      (ms' = [] ∧ skipWs q = '}' :: r ∨ ∃ q', skipWs q = ',' :: q' ∧
        Reads (.members ms') q' r) := by
  have name : ∀ {s' t t' : Text} {n : List ℕ}, skipWs s = '"' :: s' → Chars n s' t →
    skipWs t = ':' :: t' →
      n = utf16 w ∧ t' = x := by
    intro s' t t' n hs' hn ht
    rw [hs, List.cons.injEq] at hs'
    obtain ⟨-, rfl⟩ := hs'
    obtain ⟨rfl, rfl⟩ := hw.eq_of_chars hn
    exact ⟨rfl, (List.cons.inj ht).2.symm⟩
  cases h with
  | lastMember hs' hn ht hv hq =>
    obtain ⟨rfl, rfl⟩ := name hs' hn ht
    exact ⟨_, [], rfl, _, hv, .inl ⟨rfl, hq⟩⟩
  | member hs' hn ht hv hq hms =>
    obtain ⟨rfl, rfl⟩ := name hs' hn ht
    exact ⟨_, _, rfl, _, hv, .inr ⟨_, hq, hms⟩⟩

/-- The next character that is not blank is before a bracket. -/
theorem skipWs_before {d : Char} {x : Text} (h : skipWs (s ++ ']' :: t) = d :: x) (hd : d ≠ ']') :
    ∃ y, skipWs s = d :: y ∧ x = y ++ ']' :: t := by
  rcases hs : skipWs s with _ | ⟨e, y⟩
  · rw [skipWs_append_of_nil hs] at h
    exact absurd (List.cons.inj h).1.symm hd
  · rw [skipWs_append_cons hs] at h
    obtain ⟨rfl, rfl⟩ := List.cons.inj h
    exact ⟨y, rfl, rfl⟩

/-- **The last member begins where its comma is written.** The text ends with a bracket, the comma
of a member and its name; then an object with a number as its last member has this one. -/
theorem Reads.eq_tail {x q q' z n : Text} {name : List ℕ}
    (hsuf : q <:+ x ++ ']' :: ',' :: ' ' :: '"' :: c :: z) (hq : skipWs q = ',' :: q')
    (hmem : Reads (.members [(name, .number n)]) q' r) (hr : skipWs r = []) (hcomma : ',' ∉ c :: z)
    (hws : ¬ isWs c) (hcolon : c ≠ ':') (hbrace : c ≠ '}') (hn : c ∉ n) :
    q = ',' :: ' ' :: '"' :: c :: z := by
  have hmemq : ',' ∈ q := List.dropWhile_subset isWs (hq ▸ List.mem_cons_self : ',' ∈ skipWs q)
  have hsuf' : ',' :: ' ' :: '"' :: c :: z <:+ x ++ ']' :: ',' :: ' ' :: '"' :: c :: z :=
    ⟨x ++ [']'], by simp⟩
  rcases List.suffix_or_suffix_of_suffix hsuf hsuf' with h | ⟨y, rfl⟩
  · -- a shorter text has no comma
    rcases List.suffix_cons_iff.mp h with h | h
    · exact h
    · refine absurd (h.subset hmemq) ?_
      simpa using hcomma
  · rcases List.eq_nil_or_concat' y with rfl | ⟨y, d, rfl⟩
    · rfl
    · -- a longer one has the bracket before the name
      obtain ⟨w, hw⟩ := hsuf
      have hd : d = ']' := by
        have hw' : ((w ++ y) ++ [d]) ++ ',' :: ' ' :: '"' :: c :: z = (x ++ [']']) ++ ',' :: ' ' ::
          '"' :: c :: z := by
          simpa using hw
        simpa using (List.append_inj' (List.append_cancel_right hw') rfl).2
      subst hd
      rw [List.append_assoc, List.singleton_append] at hq
      obtain ⟨y₁, -, rfl⟩ := skipWs_before hq (by decide)
      cases hmem with
      | member _ _ _ _ _ hnil => cases hnil
      | lastMember hs hchars ht hv hq₂ =>
        obtain ⟨y₂, -, rfl⟩ := skipWs_before hs (by decide)
        have hmemt : c ∈ _ := (hchars.suffix_of_blank (y₂ ++ [']', ',']) (c :: z) (by simp)).subset
          List.mem_cons_self
        have hmemt' := mem_skipWs hmemt hws
        rw [ht] at hmemt'
        have hv' := mem_skipWs ((List.mem_cons.mp hmemt').resolve_left hcolon) hws
        generalize skipWs _ = v at hv hv'
        cases hv with
        | number =>
          have hq₂' := mem_skipWs ((List.mem_append.mp hv').resolve_left hn) hws
          rw [hq₂] at hq₂'
          have hr' := mem_skipWs ((List.mem_cons.mp hq₂').resolve_left hbrace) hws
          rw [hr] at hr'
          exact absurd hr' List.not_mem_nil

end Last

/-! ### Numbers and lists -/

theorem head?_toDigits {n : ℕ} (h : n ≠ 0) : (Nat.toDigits 10 n).head? ≠ some '0' := by
  induction n using Nat.strongRecOn with
  | ind n ih =>
    rcases Nat.lt_or_ge n 10 with hlt | hge
    · have hdigit : ∀ m < 10, m ≠ 0 → Nat.digitChar m ≠ '0' := by decide
      rw [Nat.toDigits_of_lt_base hlt]
      exact fun heq => hdigit n hlt h (Option.some.inj heq)
    · rw [Nat.toDigits_of_base_le (by omega) hge, List.head?_append_of_ne_nil _ Nat.toDigits_ne_nil]
      exact ih (n / 10) (by omega) (by omega)

theorem isInteger_toDigits (n : ℕ) : IsInteger (Nat.toDigits 10 n) := by
  rcases Nat.eq_zero_or_pos n with rfl | hpos
  · exact .inl (Nat.toDigits_zero 10)
  · refine .inr ⟨⟨Nat.toDigits_ne_nil, fun c hc => ?_⟩, head?_toDigits (by omega)⟩
    exact Integers.isDigit_of_mem_toDigits hc

/-- The decimal numeral of an integer. -/
theorem isNumber_toString (i : ℤ) : IsNumber (toString i).toList := by
  rcases i with n | n
  · refine ⟨[], Nat.toDigits 10 n, [], [], .inl rfl, isInteger_toDigits n, .inl rfl, .inl rfl, ?_⟩
    rw [List.append_nil, List.append_nil, List.nil_append]
    exact Integers.toList_toString_natCast n
  · refine ⟨['-'], Nat.toDigits 10 (n + 1), [], [], .inr rfl, isInteger_toDigits (n + 1),
      .inl rfl, .inl rfl, ?_⟩
    rw [List.append_nil, List.append_nil]
    exact Integers.toList_toString_negSucc n

/-- `xs.mkString(sep)`. -/
def mkString (sep : Text) : List Text → Text
  | [] => []
  | [x] => x
  | x :: y :: xs => x ++ (sep ++ mkString sep (y :: xs))

/-- The text of a value, without blanks around it. -/
def IsValue (s : Text) : Prop := ∃ v, Reads (.value v) s []

theorem isWs_of_isDigit {c : Char} (h : c.isDigit = true) : ¬ isWs c := by
  intro hws
  simp only [isWs, Bool.or_eq_true, beq_iff_eq] at hws
  rcases hws with ((rfl | rfl) | rfl) | rfl <;> cases h

theorem IsNumber.head {n : Text} (h : IsNumber n) :
    ∃ c s, n = c :: s ∧ (c = '-' ∨ c.isDigit = true) := by
  obtain ⟨sign, int, frac, exp, hsign, hint, -, -, rfl⟩ := h
  rcases hsign with rfl | rfl
  · rcases hint with rfl | ⟨⟨hne, hdigits⟩, -⟩
    · exact ⟨'0', _, rfl, .inr rfl⟩
    · obtain ⟨c, s, rfl⟩ := List.exists_cons_of_ne_nil hne
      exact ⟨c, _, rfl, .inr (hdigits c List.mem_cons_self)⟩
  · exact ⟨'-', _, rfl, .inl rfl⟩

theorem IsNumber.head_eq {n r s : Text} {c : Char} (h : IsNumber n) (hx : c :: s = n ++ r) :
    c = '-' ∨ c.isDigit = true := by
  obtain ⟨d, t, rfl, hd⟩ := h.head
  rwa [(List.cons.inj hx).1]

theorem IsNumber.skipWs_eq {n : Text} (h : IsNumber n) (r : Text) : skipWs (n ++ r) = n ++ r := by
  obtain ⟨c, s, rfl, hc⟩ := h.head
  have hws : ¬ isWs c := by
    rcases hc with rfl | hc
    · decide
    · exact isWs_of_isDigit hc
  rw [skipWs, List.cons_append, List.dropWhile_cons, if_neg hws]

/-- No blanks are read before a value. -/
theorem Reads.skipWs_eq {v : Json} {s r : Text} (h : Reads (.value v) s r) : skipWs s = s := by
  cases h with
  | number hn => exact hn.skipWs_eq _
  | _ => rfl

theorem Reads.elements_blank {vs : List Json} {t s r : Text} (ht : ∀ c ∈ t, isWs c)
    (h : Reads (.elements vs) s r) :
    Reads (.elements vs) (t ++ s) r := by
  have hskip : skipWs (t ++ s) = skipWs s := List.dropWhile_append_of_pos ht
  cases h with
  | last hv hclose => exact .last (hskip ▸ hv) hclose
  | element hv hcomma hvs => exact .element (hskip ▸ hv) hcomma hvs

/-- What begins with a quote is a string. -/
theorem Reads.string_inv {v : Json} {s r : Text} (h : Reads (.value v) ('"' :: s) r) :
    ∃ u, v = .string u ∧ Chars u s r := by
  generalize hx : '"' :: s = x at h
  cases h with
  | string hs =>
    obtain ⟨-, rfl⟩ := List.cons.inj hx
    exact ⟨_, rfl, hs⟩
  | number hn => rcases hn.head_eq hx with hc | hc <;> cases hc
  | _ => cases hx

/-- What begins with a brace is an object. -/
theorem Reads.object_inv {v : Json} {s r : Text} (h : Reads (.value v) ('{' :: s) r) :
    ∃ ms, v = .object ms ∧ (ms = [] ∧ skipWs s = '}' :: r ∨ Reads (.members ms) s r) := by
  generalize hx : '{' :: s = x at h
  cases h with
  | emptyObject hs =>
    obtain ⟨-, rfl⟩ := List.cons.inj hx
    exact ⟨[], rfl, .inl ⟨rfl, hs⟩⟩
  | object hms =>
    obtain ⟨-, rfl⟩ := List.cons.inj hx
    exact ⟨_, rfl, .inr hms⟩
  | number hn => rcases hn.head_eq hx with hc | hc <;> cases hc
  | _ => cases hx

/-- Values with commas, and blanks after them, are a list. -/
theorem listed_mkString {blanks : Text} (hb : blanks.all isWs) {xs : List Text}
    (h : ∀ x ∈ xs, IsValue x) :
    Listed (mkString (',' :: blanks) xs) := by
  have value : ∀ {x : Text}, IsValue x → ∀ t, ∃ v, Reads (.value v) (skipWs (x ++ t)) t := by
    rintro x ⟨v, hv⟩ t
    have hread := hv.frame t
    exact ⟨v, by rwa [hread.skipWs_eq]⟩
  have elements : ∀ {xs : List Text} {x : Text}, (∀ y ∈ x :: xs, IsValue y) →
      ∃ vs, Reads (.elements vs) (mkString (',' :: blanks) (x :: xs) ++ [']']) [] := by
    intro xs
    induction xs with
    | nil =>
      intro x hx
      obtain ⟨v, hv⟩ := value (hx x List.mem_cons_self) [']']
      exact ⟨[v], .last hv rfl⟩
    | cons y xs ih =>
      intro x hx
      obtain ⟨vs, hvs⟩ := ih fun z hz => hx z (List.mem_cons_of_mem x hz)
      obtain ⟨v, hv⟩ := value (hx x List.mem_cons_self)
        (',' :: (blanks ++ (mkString (',' :: blanks) (y :: xs) ++ [']'])))
      refine ⟨v :: vs, ?_⟩
      rw [mkString, List.append_assoc, List.cons_append, List.cons_append, List.append_assoc]
      exact .element hv rfl (hvs.elements_blank (List.all_eq_true.mp hb))
  rcases xs with _ | ⟨x, xs⟩
  · exact ⟨[], .emptyArray rfl⟩
  · obtain ⟨vs, hvs⟩ := elements h
    exact ⟨vs, .array hvs⟩

theorem IsNumber.isValue {n : Text} (h : IsNumber n) : IsValue n := by
  have hread := Reads.number (r := []) h
  rw [List.append_nil] at hread
  exact ⟨.number n, hread⟩

theorem Plain.isValue {s : Text} (h : Plain s) : IsValue ('"' :: (s ++ ['"'])) :=
  ⟨_, .string (h.chars [])⟩

theorem IsValue.listed {s : Text} (h : IsValue s) : Listed s := by
  have hmem : ∀ x ∈ [s], IsValue x := by simpa using h
  exact listed_mkString List.all_nil hmem

end ServeD.Lib.JsonText
