import ServeD.Lib.JsonText

/-! # JSON as programs write it

Strings with an escape for each character that needs one, objects whose members have plain names,
and arrays. What is written from values that are read back is read back (`Reads.object_written`,
`Reads.array_written`). A control character other than a blank is in no JSON text
(`Denotes.readable`). -/

namespace ServeD.Lib.JsonText

open ServeD.Lib.Texts

/-! ### The characters of a text -/

/-- The character can stand somewhere in a JSON text. -/
def Readable (c : Char) : Prop := isWs c ∨ 0x20 ≤ c.toNat

section Readable

variable {s r : Text}

theorem readable_of_skipWs (h : ∀ c ∈ skipWs s, Readable c) : ∀ c ∈ s, Readable c := by
  intro c hc
  by_cases hws : isWs c
  · exact .inl hws
  · exact h c (mem_skipWs hc hws)

theorem le_of_hexDigit {c : Char} {n : ℕ} (h : hexDigit c = some n) : 0x20 ≤ c.toNat := by
  unfold hexDigit at h
  split_ifs at h with h₁ h₂ h₃
  · exact le_trans (by decide) (Char.le_def.mp h₁.1)
  · exact le_trans (by decide) (Char.le_def.mp h₂.1)
  · exact le_trans (by decide) (Char.le_def.mp h₃.1)

theorem le_of_unescape {c : Char} {n : ℕ} (h : unescape c = some n) : 0x20 ≤ c.toNat := by
  unfold unescape at h
  split at h
  all_goals first | decide | cases h

theorem Chars.readable {u : List ℕ} (h : Chars u s r) (hr : ∀ c ∈ r, Readable c) :
    ∀ c ∈ s, Readable c := by
  induction h with
  | close => exact List.forall_mem_cons.mpr ⟨.inr (by decide), hr⟩
  | plain hc _ ih => exact List.forall_mem_cons.mpr ⟨.inr hc.2.2, ih hr⟩
  | escape hc _ ih =>
    exact List.forall_mem_cons.mpr ⟨.inr (by decide), List.forall_mem_cons.mpr
      ⟨.inr (le_of_unescape hc), ih hr⟩⟩
  | @unicode a b c d n u s r hx _ ih =>
    have hdigits : ∀ x ∈ [a, b, c, d], Readable x := by
      intro x hmem
      obtain ⟨m, hm⟩ := exists_of_hex4 hx x hmem
      exact .inr (le_of_hexDigit hm)
    have hfirst : ∀ x ∈ ['\\', 'u'], Readable x := by
      intro x hmem
      have hle : ['\\', 'u'].all (fun x => decide (0x20 ≤ x.toNat)) = true := by decide
      exact .inr (by simpa using List.all_eq_true.mp hle x hmem)
    exact List.forall_mem_append.mpr ⟨hfirst, List.forall_mem_append.mpr ⟨hdigits, ih hr⟩⟩

theorem readable_of_isNumber {n : Text} (h : IsNumber n) : ∀ c ∈ n, Readable c := by
  have digits : ∀ {ds : Text}, Digits ds → ∀ c ∈ ds, Readable c := by
    intro ds hds c hc
    have hzero : '0'.toNat ≤ c.toNat := (Char.isDigit_iff_toNat.mp (hds.2 c hc)).1
    exact .inr (le_trans (by decide) hzero)
  have literal : ∀ {t : Text}, (t.all fun c => decide (0x20 ≤ c.toNat)) → ∀ c ∈ t, Readable c := by
    intro t ht c hc
    exact .inr (by simpa using List.all_eq_true.mp ht c hc)
  obtain ⟨sign, int, frac, exp, hsign, hint, hfrac, hexp, rfl⟩ := h
  refine List.forall_mem_append.mpr ⟨?_, List.forall_mem_append.mpr
    ⟨?_, List.forall_mem_append.mpr ⟨?_, ?_⟩⟩⟩
  · rcases hsign with rfl | rfl <;> exact literal (by decide)
  · rcases hint with rfl | ⟨hds, -⟩
    · exact literal (by decide)
    · exact digits hds
  · rcases hfrac with rfl | ⟨ds, hds, rfl⟩
    · exact literal (by decide)
    · exact List.forall_mem_cons.mpr ⟨.inr (by decide), digits hds⟩
  · rcases hexp with rfl | ⟨e, sign, ds, he, hsign, hds, rfl⟩
    · exact literal (by decide)
    · refine List.forall_mem_cons.mpr ⟨?_, List.forall_mem_append.mpr ⟨?_, digits hds⟩⟩
      · rcases he with rfl | rfl <;> exact .inr (by decide)
      · rcases hsign with rfl | rfl | rfl <;> exact literal (by decide)

theorem Reads.readable {i : Item} (h : Reads i s r) (hr : ∀ c ∈ r, Readable c) :
    ∀ c ∈ s, Readable c := by
  have literal : ∀ {t r : Text}, (t.all fun c => decide (0x20 ≤ c.toNat)) → (∀ c ∈ r, Readable c) →
      ∀ c ∈ t ++ r, Readable c := by
    intro t r ht hr
    refine List.forall_mem_append.mpr ⟨fun c hc => .inr ?_, hr⟩
    simpa using List.all_eq_true.mp ht c hc
  have cons : ∀ {d : Char} {t x : Text}, skipWs t = d :: x → 0x20 ≤ d.toNat →
    (∀ c ∈ x, Readable c) →
      ∀ c ∈ t, Readable c := by
    intro d t x ht hd hx
    refine readable_of_skipWs ?_
    rw [ht]
    exact List.forall_mem_cons.mpr ⟨.inr hd, hx⟩
  induction h with
  | null => exact literal (t := ['n', 'u', 'l', 'l']) (by decide) hr
  | true => exact literal (t := ['t', 'r', 'u', 'e']) (by decide) hr
  | false => exact literal (t := ['f', 'a', 'l', 's', 'e']) (by decide) hr
  | number hn => exact List.forall_mem_append.mpr ⟨readable_of_isNumber hn, hr⟩
  | string hs => exact literal (t := ['"']) (by decide) (hs.readable hr)
  | emptyArray hs => exact literal (t := ['[']) (by decide) (cons hs (by decide) hr)
  | array _ ih => exact literal (t := ['[']) (by decide) (ih hr)
  | emptyObject hs => exact literal (t := ['\x7b']) (by decide) (cons hs (by decide) hr)
  | object _ ih => exact literal (t := ['\x7b']) (by decide) (ih hr)
  | last _ ht ih => exact readable_of_skipWs (ih (cons ht (by decide) hr))
  | element _ ht _ ih ih' => exact readable_of_skipWs (ih (cons ht (by decide) (ih' hr)))
  | lastMember hs hn ht _ hq ih =>
    have hvalue := readable_of_skipWs (ih (cons hq (by decide) hr))
    exact cons hs (by decide) (hn.readable (cons ht (by decide) hvalue))
  | member hs hn ht _ hq _ ih ih' =>
    have hvalue := readable_of_skipWs (ih (cons hq (by decide) (ih' hr)))
    exact cons hs (by decide) (hn.readable (cons ht (by decide) hvalue))

theorem Denotes.readable {body : Text} {v : Json} (h : Denotes body v) :
    ∀ c ∈ body, Readable c := by
  obtain ⟨r, hread, hr⟩ := h
  refine readable_of_skipWs (Reads.readable hread (readable_of_skipWs ?_))
  simp [hr]

end Readable

/-! ### Strings -/

/-- Read in a string, the text stands for the character. -/
def StandsFor (e : Text) (c : Char) : Prop :=
  ∀ {u : List ℕ} {s r : Text}, Chars u s r → Chars (units c ++ u) (e ++ s) r

theorem PlainChar.standsFor {c : Char} (h : PlainChar c) : StandsFor [c] c := fun hs => .plain h hs

/-- An escape of an ASCII character. -/
theorem standsFor_escape {c d : Char} (hd : unescape d = some c.toNat) (hc : c.toNat < 128) :
    StandsFor ['\\', d] c := by
  intro u s r hs
  rw [units_ascii hc]
  exact .escape hd hs

/-- **A string is read back** if it is written by texts that stand for its characters. -/
theorem chars_flatMap {e : Char → Text} {s : Text} (h : ∀ c ∈ s, StandsFor (e c) c) (r : Text) :
    Chars (utf16 s) (s.flatMap e ++ '"' :: r) r := by
  induction s with
  | nil => exact .close
  | cons c s ih =>
    rw [utf16_cons, List.flatMap_cons, List.append_assoc]
    exact h c List.mem_cons_self (ih fun d hd => h d (List.mem_cons_of_mem c hd))

theorem reads_quoted {e : Char → Text} {s : Text} (h : ∀ c ∈ s, StandsFor (e c) c) :
    Reads (.value (.string (utf16 s))) ('"' :: (s.flatMap e ++ ['"'])) [] :=
  .string (chars_flatMap h [])

/-- Before a comma and the quote of a next member, a string ends with the quote before the comma, or
this quote is escaped and the string ends with the comma. -/
theorem Chars.comma {u : List ℕ} {s r : Text} (h : Chars u s r) :
    ∀ w z, s = w ++ '"' :: ',' :: '"' :: z →
    z.length + 2 ≤ r.length ∨ (w.getLast? = some '\\' ∧ u.getLast? = some 0x2c) := by
  induction h with
  | close =>
    rintro w z hs
    have hlen := congrArg List.length hs
    simp only [List.length_append, List.length_cons] at hlen
    left
    omega
  | @plain c u s r hc _ ih =>
    rintro w z hs
    rcases w with _ | ⟨d, w⟩
    · exact absurd (List.cons.inj hs).1 hc.1
    · refine (ih w z (List.cons.inj hs).2).imp_right fun ⟨hw, hu⟩ => ⟨?_, ?_⟩
      · rw [List.getLast?_cons, hw]
        rfl
      · rw [List.getLast?_append, hu]
        rfl
  | @escape c n u s r hc hs ih =>
    rintro w z hw
    rcases w with _ | ⟨d, _ | ⟨d', w⟩⟩
    · exact absurd (List.cons.inj hw).1 (by decide)
    · -- the quote is escaped: then the comma and the closing quote follow
      obtain ⟨rfl, htail⟩ := List.cons.inj hw
      obtain ⟨rfl, rfl⟩ := List.cons.inj htail
      refine .inr ⟨rfl, ?_⟩
      cases hs with
      | plain _ hs =>
        cases hs with
        | close => rfl
        | plain hquote => exact absurd rfl hquote.1
    · obtain ⟨rfl, htail⟩ := List.cons.inj hw
      obtain ⟨rfl, hrest⟩ := List.cons.inj htail
      refine (ih w z hrest).imp_right fun ⟨hlast, hu⟩ => ⟨?_, ?_⟩
      · rw [List.getLast?_cons, List.getLast?_cons, hlast]
        rfl
      · rw [List.getLast?_cons, hu]
        rfl
  | @unicode a b c d n u s r hx _ ih =>
    rintro w z hw
    obtain ⟨w', rfl, hs'⟩ := exists_behind_unicode hx (by decide) (by decide) (by decide) hw
    refine (ih w' z hs').imp_right fun ⟨hlast, hu⟩ => ⟨?_, ?_⟩
    · simp only [List.getLast?_cons, hlast, Option.getD_some]
    · rw [List.getLast?_cons, hu]
      rfl

/-- **A text written between quotes as it is, and read back, is plain** if a member follows it. -/
theorem Chars.plain_of_comma {s t r : Text} (h : Chars (utf16 s) (s ++ '"' :: ',' :: '"' :: t) r) :
    Plain s ∧ r = ',' :: '"' :: t := by
  obtain ⟨raw, hraw, hlen, hplain⟩ := h.raw
  rcases h.comma s t rfl with hle | ⟨hs, hu⟩
  · have hsum := congrArg List.length hraw
    simp only [List.length_append, List.length_cons] at hsum
    rcases List.append_eq_append_iff.mp hraw with ⟨a, rfl, ha⟩ | ⟨a, rfl, ha⟩
    · rw [List.length_append] at hsum
      obtain rfl : a = [] := List.length_eq_zero_iff.mp (by omega)
      rw [List.append_nil] at hplain
      exact ⟨hplain (Nat.le_refl _), (List.cons.inj ha).2.symm⟩
    · rcases a with _ | ⟨x, a⟩
      · rw [List.append_nil] at hlen hplain ⊢
        exact ⟨hplain (Nat.le_refl _), (List.cons.inj ha).2⟩
      · have hpos := length_units_pos x
        rw [utf16_append, utf16_cons, List.length_append, List.length_append] at hlen
        omega
  · -- the text ends with a backslash, but what is read ends with a comma
    obtain ⟨w, rfl⟩ := List.getLast?_eq_some_iff.mp hs
    have hlast : (utf16 (w ++ ['\\'])).getLast? = some 0x5c := by
      rw [utf16_append, List.getLast?_append]
      rfl
    rw [hlast] at hu
    cases hu

/-! ### Objects and arrays -/

/-- A member of an object with the text that is written for its value. -/
structure Member where
  name : Text
  text : Text
  value : Json

def Member.written (m : Member) : Text := '"' :: (m.name ++ '"' :: ':' :: m.text)

def Member.pair (m : Member) : List ℕ × Json := (utf16 m.name, m.value)

def writeObject (ms : List Member) : Text :=
  '\x7b' :: (mkString [','] (ms.map Member.written) ++ ['\x7d'])

def writeArray (xs : List Text) : Text := '[' :: (mkString [','] xs ++ [']'])

theorem mkString_map_cons {α : Type} (f : α → Text) (sep : Text) (x y : α) (xs : List α) :
    mkString sep ((x :: y :: xs).map f) = f x ++ (sep ++ mkString sep ((y :: xs).map f)) := rfl

theorem mem_mkString {sep : Text} {c : Char} {xs : List Text} :
    (∃ x ∈ xs, c ∈ x) → c ∈ mkString sep xs := by
  rintro ⟨x, hx, hc⟩
  fun_induction mkString sep xs with
  | case1 => cases hx
  | case2 y => rwa [← List.mem_singleton.mp hx]
  | case3 y z xs ih =>
    rcases List.mem_cons.mp hx with rfl | hx
    · exact List.mem_append_left _ hc
    · exact List.mem_append_right _ (List.mem_append_right _ (ih hx))

theorem mem_of_mem_mkString {sep : Text} {c : Char} {xs : List Text} (h : c ∈ mkString sep xs) :
    c ∈ sep ∨ ∃ x ∈ xs, c ∈ x := by
  fun_induction mkString sep xs with
  | case1 => cases h
  | case2 y => exact .inr ⟨y, List.mem_singleton_self y, h⟩
  | case3 y z xs ih =>
    rcases List.mem_append.mp h with h | h
    · exact .inr ⟨y, List.mem_cons_self, h⟩
    · rcases List.mem_append.mp h with h | h
      · exact .inl h
      · exact (ih h).imp_right fun ⟨x, hx, hc⟩ => ⟨x, List.mem_cons_of_mem y hx, hc⟩

/-- The name is plain, and the value is read back. -/
structure Member.Sound (m : Member) : Prop where
  plain : Plain m.name
  reads : Reads (.value m.value) m.text []

/-- The name is plain, and where the value is read, it is read to the end of its text. -/
structure Member.Exact (m : Member) : Prop where
  plain : Plain m.name
  noBlanks : ∀ t, skipWs (m.text ++ t) = m.text ++ t
  exact : ∀ {t r : Text}, Reads (.value m.value) (m.text ++ t) r → r = t

/-- A value that is read back is read before any text. -/
theorem Reads.before {v : Json} {x : Text} (h : Reads (.value v) x []) (t : Text) :
    Reads (.value v) (skipWs (x ++ t)) t := by
  have hread := h.frame t
  rwa [hread.skipWs_eq]

theorem Member.Sound.exists_reads {m : Member} (h : m.Sound) (x : Text) :
    ∃ s', skipWs (m.written ++ x) = '"' :: s' ∧
    Chars (utf16 m.name) s' (':' :: (m.text ++ x)) ∧ Reads (.value m.value)
      (skipWs (m.text ++ x)) x := by
  refine ⟨m.name ++ '"' :: ':' :: (m.text ++ x), ?_, h.plain.chars _, h.reads.before x⟩
  rw [Member.written, List.cons_append, List.append_assoc]
  rfl

theorem reads_members {t : Text} : ∀ (ms : List Member) (m : Member), (∀ n ∈ m :: ms, n.Sound) →
    Reads (.members ((m :: ms).map Member.pair)) (mkString [','] ((m :: ms).map Member.written) ++
        '\x7d' :: t) t := by
  intro ms
  induction ms with
  | nil =>
    intro m h
    obtain ⟨s', hs, hname, hv⟩ := (h m List.mem_cons_self).exists_reads ('\x7d' :: t)
    exact .lastMember hs hname rfl hv rfl
  | cons n ms ih =>
    intro m h
    obtain ⟨s', hs, hname, hv⟩ := (h m List.mem_cons_self).exists_reads
      (',' :: (mkString [','] ((n :: ms).map Member.written) ++ '\x7d' :: t))
    have hrest := ih n fun k hk => h k (List.mem_cons_of_mem m hk)
    rw [mkString_map_cons, List.append_assoc]
    exact .member hs hname rfl hv rfl hrest

/-- **An object is read back.** -/
theorem reads_writeObject {ms : List Member} (hms : ms ≠ []) (h : ∀ m ∈ ms, m.Sound) :
    Reads (.value (.object (ms.map Member.pair))) (writeObject ms) [] := by
  obtain ⟨m, ms, rfl⟩ := List.exists_cons_of_ne_nil hms
  exact .object (reads_members ms m h)

/-- Members with such values are read to the end of the object. -/
theorem Reads.members_exact {t r : Text} :
    ∀ (ms : List Member) (m : Member), (∀ n ∈ m :: ms, n.Exact) →
    Reads (.members ((m :: ms).map Member.pair)) (mkString [','] ((m :: ms).map Member.written) ++
        '\x7d' :: t) r →
    r = t := by
  intro ms
  induction ms with
  | nil =>
    intro m h hread
    have hm := h m List.mem_cons_self
    obtain ⟨v, ms', heq, q, hv, hnext⟩ := hread.member_inv (x := m.text ++ '\x7d' :: t) hm.plain (by
      simp [mkString, Member.written, skipWs, isWs])
    obtain ⟨hpair, rfl⟩ := List.cons.inj heq
    obtain rfl : m.value = v := (Prod.mk.inj hpair).2
    rw [hm.noBlanks] at hv
    obtain rfl := hm.exact hv
    rcases hnext with ⟨-, hq⟩ | ⟨q', hq, -⟩
    · exact (List.cons.inj hq).2.symm
    · exact absurd (List.cons.inj hq).1 (by decide)
  | cons n ms ih =>
    intro m h hread
    have hm := h m List.mem_cons_self
    obtain ⟨v, ms', heq, q, hv, hnext⟩ := hread.member_inv
      (x := m.text ++ ',' :: (mkString [','] ((n :: ms).map Member.written) ++ '\x7d' :: t))
      hm.plain (by
      simp [mkString, Member.written, skipWs, isWs])
    obtain ⟨hpair, rfl⟩ := List.cons.inj heq
    obtain rfl : m.value = v := (Prod.mk.inj hpair).2
    rw [hm.noBlanks] at hv
    obtain rfl := hm.exact hv
    rcases hnext with ⟨hnil, -⟩ | ⟨q', hq, hrest⟩
    · cases hnil
    · obtain ⟨-, rfl⟩ := List.cons.inj hq
      exact ih n (fun k hk => h k (List.mem_cons_of_mem m hk)) hrest

section Array

variable {α : Type} {text : α → Text} {value : α → Json}

theorem reads_elements {t : Text} : ∀ (xs : List α) (x : α),
    (∀ y ∈ x :: xs, Reads (.value (value y)) (text y) []) →
    Reads (.elements ((x :: xs).map value)) (mkString [','] ((x :: xs).map text) ++
        ']' :: t) t := by
  intro xs
  induction xs with
  | nil =>
    intro x h
    exact .last ((h x List.mem_cons_self).before _) rfl
  | cons y xs ih =>
    intro x h
    have hrest := ih y fun z hz => h z (List.mem_cons_of_mem x hz)
    rw [mkString_map_cons, List.append_assoc]
    exact .element ((h x List.mem_cons_self).before _) rfl hrest

/-- **An array is read back.** -/
theorem reads_writeArray {xs : List α} (hxs : xs ≠ [])
    (h : ∀ x ∈ xs, Reads (.value (value x)) (text x) []) :
    Reads (.value (.array (xs.map value))) (writeArray (xs.map text)) [] := by
  obtain ⟨x, xs, rfl⟩ := List.exists_cons_of_ne_nil hxs
  exact .array (reads_elements xs x h)

theorem Reads.array_inv {vs : List Json} {s r : Text} (h : Reads (.value (.array vs)) ('[' :: s) r)
    (hvs : vs ≠ []) :
    Reads (.elements vs) s r := by
  cases h with
  | emptyArray => exact absurd rfl hvs
  | array helements => exact helements

/-- If what is read for an element ends with its text, then the elements are read one by one. -/
theorem Reads.elements_exact {P : α → Prop} {t r : Text}
    (h : ∀ {x t r}, Reads (.value (value x)) (skipWs (text x ++ t)) r → P x ∧ r = t) :
    ∀ (xs : List α) (x : α),
    Reads (.elements ((x :: xs).map value)) (mkString [','] ((x :: xs).map text) ++ ']' :: t) r →
    (∀ y ∈ x :: xs, P y) ∧ r = t := by
  intro xs
  induction xs with
  | nil =>
    intro x hread
    cases hread with
    | last hv hclose =>
      obtain ⟨hx, rfl⟩ := h hv
      exact ⟨List.forall_mem_singleton.mpr hx, (List.cons.inj hclose).2.symm⟩
    | element _ _ hnil => cases hnil
  | cons y xs ih =>
    intro x hread
    rw [mkString_map_cons, List.append_assoc] at hread
    cases hread with
    | element hv hcomma hrest =>
      obtain ⟨hx, rfl⟩ := h hv
      obtain ⟨-, rfl⟩ := List.cons.inj hcomma
      obtain ⟨hy, rfl⟩ := ih y hrest
      exact ⟨List.forall_mem_cons.mpr ⟨hx, hy⟩, rfl⟩

end Array

end ServeD.Lib.JsonText
