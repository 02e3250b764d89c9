import ServeD.Launchers.Arguments
import Mathlib.Data.BitVec
import Mathlib.Data.List.TakeWhile

/-! # What the launchers take for a uid

`kick`, `svddaemon` and `svdshell -u`, run by root, from the string of the argument to the uid they
act on. `atoi` is `(int) strtol`, with a `long` of 64 bits; `>>` skips white space, reads a sign and
digits and fails if there are none or the number does not fit (a minus sign before an unsigned
number wraps around). All three stop reading at the first character that does not fit, and none
looks at the rest.

* `agree`: two launchers that act on a string act on the same uid;
* `daemon_ne_zero`: the daemon never acts on uid 0;
* `uids_iff`: the launchers refuse a string or act on the uid that it denotes exactly when it
  denotes one, that is for strings of digits with a value below `2^32`: `kick` refuses nothing, and
  acts as root on a string that does not begin with a number. -/

namespace ServeD.Launchers.Uids

open ServeD.Launchers.Arguments

/-! ### Reading numbers -/

/-- `isspace`. -/
def isSpace (c : Char) : Bool :=
  c == ' ' || c == '\t' || c == '\n' || c == '\x0b' || c == '\x0c' || c == '\r'

/-- A sign, if there is one, and the digits after it. -/
def signed : List Char → Bool × List Char
  | '-' :: cs => (true, cs.takeWhile Char.isDigit)
  | '+' :: cs => (false, cs.takeWhile Char.isDigit)
  | cs => (false, cs.takeWhile Char.isDigit)

/-- The field that is read from a string: whether it has a minus sign, and its digits. -/
def field (cs : List Char) : Bool × List Char := signed (cs.dropWhile isSpace)

/-- The value of a list of digits. -/
def value (ds : List Char) : ℕ := ds.foldl (fun n c => 10 * n + (c.toNat - '0'.toNat)) 0

/-- The number that a field stands for. -/
def number (f : Bool × List Char) : ℤ := if f.1 then -(value f.2 : ℤ) else value f.2

/-- `strtol(s, NULL, 10)`, which stays at the limits of a `long`. -/
def strtol (cs : List Char) : ℤ := max (-2 ^ 63) (min (2 ^ 63 - 1) (number (field cs)))

/-- `atoi`. -/
def atoi (cs : List Char) : BitVec 32 := BitVec.ofInt 32 (strtol cs)

/-- `istringstream(s) >> uid`, for a `uid_t`. -/
def extractUid (cs : List Char) : Option (BitVec 32) :=
  let f := field cs
  if f.2 = [] then none
  else if 2 ^ 32 ≤ value f.2 then none
  else some (BitVec.ofInt 32 (number f))

/-- `istringstream(s) >> optUid`, for an `int`. -/
def extractInt (cs : List Char) : Option ℤ :=
  let f := field cs
  if f.2 = [] then none
  else if number f < -2 ^ 31 ∨ 2 ^ 31 ≤ number f then none
  else some (number f)

/-! ### The launchers -/

/-- The exit codes with which a launcher refuses a string. -/
inductive Refusal where
  | rootUidError
  | ambigousEntryError
  deriving DecidableEq, Repr

/-- `kick`: `uid_t uid = atoi(argv[1])`; as root it stays if this is 0, else it calls `setuid`. -/
def kick (s : CString) : Except Refusal (BitVec 32) := .ok (atoi s.chars)

/-- `svddaemon`. -/
def daemon (s : CString) : Except Refusal (BitVec 32) :=
  if s.chars = "0".toList then .error .rootUidError
  else
    match extractUid s.chars with
    | none => .error .ambigousEntryError
    | some uid => if uid = 0 then .error .ambigousEntryError else .ok uid

/-- `svdshell -u`. -/
def shell (s : CString) : Except Refusal (BitVec 32) :=
  match extractInt s.chars with
  | none => .error .ambigousEntryError
  | some optUid =>
    if optUid < 0 then .error .ambigousEntryError else .ok (BitVec.ofInt 32 optUid)

/-! ### What they should do -/

/-- The number that the whole of a string denotes. -/
def denotes (s : CString) : Option ℕ :=
  if s.chars ≠ [] ∧ s.chars.all Char.isDigit then some (value s.chars) else none

/-- The launcher refuses the string or acts on the uid that it denotes. -/
def ActsOn (launcher : CString → Except Refusal (BitVec 32)) (s : CString) : Prop :=
  ∀ uid, launcher s = .ok uid → denotes s = some uid.toNat

/-- Two launchers do not act on different uids. -/
def Agree (one other : CString → Except Refusal (BitVec 32)) (s : CString) : Prop :=
  ∀ uid uid', one s = .ok uid → other s = .ok uid' → uid = uid'

structure UidLaw (s : CString) : Prop where
  kick : ActsOn kick s
  daemon : ActsOn daemon s
  shell : ActsOn shell s
  kickDaemon : Agree Uids.kick Uids.daemon s
  kickShell : Agree Uids.kick Uids.shell s
  daemonShell : Agree Uids.daemon Uids.shell s
  root : Uids.kick s = .ok 0 ∨ Uids.shell s = .ok 0 → denotes s = some 0
  daemonRoot : Uids.daemon s ≠ .ok 0

/-! ### What they do -/

section Uids

variable {s : CString} {uid : BitVec 32}

theorem number_neg_or (f : Bool × List Char) :
    number f = value f.2 ∨ number f = -(value f.2 : ℤ) := by
  unfold number
  split_ifs
  · exact .inr rfl
  · exact .inl rfl

/-- Numbers in the range of a `long` are not cut. -/
theorem strtol_eq {cs : List Char} (h : value (field cs).2 < 2 ^ 32) :
    strtol cs = number (field cs) := by
  unfold strtol
  rcases number_neg_or (field cs) with hn | hn
  · rw [hn]; omega
  · rw [hn]; omega

/-- The daemon acts on what `kick` acts on. -/
theorem daemon_eq (h : daemon s = .ok uid) : kick s = .ok uid ∧ uid ≠ 0 := by
  unfold daemon at h
  split_ifs at h
  split at h
  · cases h
  · next v hv =>
    split_ifs at h with h0
    cases h
    unfold extractUid at hv
    dsimp only at hv
    split_ifs at hv with hd hr
    rw [← Option.some.inj hv, kick, atoi, strtol_eq (by omega)]
    exact ⟨rfl, by rw [Option.some.inj hv]; exact h0⟩

/-- So does the shell. -/
theorem shell_eq (h : shell s = .ok uid) : kick s = .ok uid := by
  unfold shell at h
  split at h
  · cases h
  · next v hv =>
    split_ifs at h with hneg
    cases h
    unfold extractInt at hv
    dsimp only at hv
    split_ifs at hv with hd hr
    have hn : number (field s.chars) = v := Option.some.inj hv
    have hv32 : value (field s.chars).2 < 2 ^ 32 := by
      rcases number_neg_or (field s.chars) with h | h
      · omega
      · omega
    rw [kick, atoi, strtol_eq hv32, hn]

theorem agree (s : CString) : Agree kick daemon s ∧ Agree kick shell s ∧ Agree daemon shell s := by
  refine ⟨fun u v hu hv => ?_, fun u v hu hv => ?_, fun u v hu hv => ?_⟩
  · exact Except.ok.inj (hu.symm.trans (daemon_eq hv).1)
  · exact Except.ok.inj (hu.symm.trans (shell_eq hv))
  · exact Except.ok.inj ((daemon_eq hu).1.symm.trans (shell_eq hv))

theorem daemon_ne_zero (s : CString) : daemon s ≠ .ok 0 := fun h => (daemon_eq h).2 rfl

/-- The field of a string of digits is the whole string. -/
theorem field_digits {cs : List Char} (h : ∀ c ∈ cs, c.isDigit = true) :
    field cs = (false, cs) := by
  have hspace : ∀ c : Char, c.isDigit = true → isSpace c = false ∧ c ≠ '-' ∧ c ≠ '+' := by
    intro c hc
    refine ⟨?_, ?_, ?_⟩
    · by_contra hs
      simp only [isSpace, Bool.not_eq_false, Bool.or_eq_true, beq_iff_eq] at hs
      rcases hs with ((((rfl | rfl) | rfl) | rfl) | rfl) | rfl <;> exact absurd hc (by decide)
    · rintro rfl; exact absurd hc (by decide)
    · rintro rfl; exact absurd hc (by decide)
  have htake : cs.takeWhile Char.isDigit = cs := List.takeWhile_eq_self_iff.mpr h
  rcases cs with _ | ⟨c, cs⟩
  · rfl
  · obtain ⟨hs, hm, hp⟩ := hspace c (h c (by simp))
    rw [field, List.dropWhile_cons_of_neg (by simp [hs])]
    unfold signed
    split
    · next heq => exact absurd (List.cons.inj heq).1 hm
    · next heq => exact absurd (List.cons.inj heq).1 hp
    · rw [htake]

theorem kick_denotes {n : ℕ} (h : denotes s = some n) (hn : n < 2 ^ 32) :
    kick s = .ok (BitVec.ofNat 32 n) := by
  unfold denotes at h
  split_ifs at h with hd
  have hval : value s.chars = n := Option.some.inj h
  have hf : field s.chars = (false, s.chars) := field_digits fun c hc =>
    List.all_eq_true.mp hd.2 c hc
  have hlt : value (field s.chars).2 < 2 ^ 32 := by rw [hf, hval]; exact hn
  rw [kick, atoi, strtol_eq hlt, hf, number, if_neg (by simp), hval, BitVec.ofInt_natCast]

/-- **The launchers keep to the uid that a string denotes exactly when it denotes one.** -/
theorem uids_iff (s : CString) : UidLaw s ↔ ∃ n, denotes s = some n ∧ n < 2 ^ 32 := by
  constructor
  · intro h
    exact ⟨_, h.kick (atoi s.chars) rfl, (atoi s.chars).isLt⟩
  · rintro ⟨n, hden, hn⟩
    have hk : ActsOn kick s := by
      intro uid hu
      rw [kick_denotes hden hn] at hu
      rw [← Except.ok.inj hu, BitVec.toNat_ofNat, Nat.mod_eq_of_lt hn]
      exact hden
    obtain ⟨h1, h2, h3⟩ := agree s
    refine ⟨hk, fun uid hu => hk uid (daemon_eq hu).1, fun uid hu => hk uid (shell_eq hu),
      h1, h2, h3, ?_, daemon_ne_zero s⟩
    rintro (h | h)
    · exact hk 0 h
    · exact hk 0 (shell_eq h)

/-- `abc`, which is no number, makes `kick` run as root; `501abc` makes all three act on 501. -/
theorem not_uidLaw_abc :
    kick ⟨"abc".toList, by decide⟩ = .ok 0 ∧ ¬ UidLaw ⟨"abc".toList, by decide⟩ ∧
      daemon ⟨"501abc".toList, by decide⟩ = .ok 501 ∧ shell ⟨"501abc".toList, by decide⟩ = .ok 501 ∧
      ¬ UidLaw ⟨"501abc".toList, by decide⟩ := by
  refine ⟨by decide, fun h => ?_, by decide, by decide, fun h => ?_⟩
  · exact absurd (h.kick 0 (by decide)) (by decide)
  · exact absurd (h.daemon 501 (by decide)) (by decide)

end Uids

end ServeD.Launchers.Uids
