import ServeD.Managers.AccountUtils

/-! # Ports of an account without a root

In headless mode there is nobody to ask for a port: `SvdUserBoot` and `SvdWebManager` compute theirs
from the uid, and `SvdAccountManager` answers `System.GetPort` with the uid and the clock. `Int` and
`Long` are words of 32 and of 64 bits.

* `toInt_getPort`: what is answered, for uids whose ports fit;
* `usable_iff`: the ports can be used and differ exactly for uids up to 64508 and clocks that add
  neither too much nor 2 or 3. -/

namespace ServeD.Managers.HeadlessPorts

open ServeD.Managers.AccountUtils

def userUidPool : Pool := ⟨10000, 2147483646⟩

def InUserUidPool (uid : BitVec 32) : Prop :=
  userUidPool.start ≤ uid.toInt ∧ uid.toInt < userUidPool.stop

/-- The port in the akka configuration of a headless account. -/
def akkaPort (uid : BitVec 32) : BitVec 32 := uid + 1026

/-- `webPort` of `SvdWebManager`. -/
def webPort (uid : BitVec 32) : BitVec 32 := uid + 1027

/-- `((1024 + account.uid) + JSystem.currentTimeMillis % 10000).toInt`. -/
def randomPort (uid : BitVec 32) (currentTimeMillis : BitVec 64) : BitVec 32 :=
  ((1024 + uid).signExtend 64 + currentTimeMillis.srem 10000).setWidth 32

/-- The answer to `System.GetPort`. -/
def getPort (uid : BitVec 32) (currentTimeMillis : BitVec 64) : BitVec 32 :=
  (randomPort uid currentTimeMillis).abs

def IsPort (port : BitVec 32) : Prop := 1 ≤ port.toInt ∧ port.toInt ≤ 65535

/-- **The ports of an account are ports, and the answered one is none of the others.** -/
structure Usable (uid : BitVec 32) (currentTimeMillis : BitVec 64) : Prop where
  akka : IsPort (akkaPort uid)
  web : IsPort (webPort uid)
  answered : IsPort (getPort uid currentTimeMillis)
  ne_akka : getPort uid currentTimeMillis ≠ akkaPort uid
  ne_web : getPort uid currentTimeMillis ≠ webPort uid

/-- What the clock adds: `%` has the sign of the clock. -/
def offset (currentTimeMillis : BitVec 64) : ℤ := currentTimeMillis.toInt.tmod 10000

theorem offset_lt (millis : BitVec 64) : -10000 < offset millis ∧ offset millis < 10000 :=
  ⟨Int.lt_tmod_of_pos _ (by decide), Int.tmod_lt_of_pos _ (by decide)⟩

/-! ### Sums -/

/-- A sum of 32 bits that does not wrap around. -/
theorem toInt_add_of_fits {x y : BitVec 32} (hlo : -2 ^ 31 ≤ x.toInt + y.toInt)
    (hhi : x.toInt + y.toInt < 2 ^ 31) :
    (x + y).toInt = x.toInt + y.toInt := by
  rw [BitVec.toInt_add]
  exact Int.bmod_eq_of_le (by omega) (by omega)

theorem toNat_of_nonneg {w : ℕ} {x : BitVec w} (h : 0 ≤ x.toInt) : (x.toNat : ℤ) = x.toInt := by
  have hlt := x.isLt
  rw [BitVec.toInt_eq_toNat_cond] at h ⊢
  split_ifs at h ⊢ <;> omega

theorem toInt_webPort (uid : BitVec 32) : (webPort uid).toInt = (uid.toInt + 1027).bmod (2 ^ 32) :=
  BitVec.toInt_add uid 1027

section Fits

variable {uid : BitVec 32} (hlo : 10000 ≤ uid.toInt) (hhi : uid.toInt ≤ 64508)
include hlo hhi

theorem toInt_akkaPort : (akkaPort uid).toInt = uid.toInt + 1026 :=
  toInt_add_of_fits (y := 1026) (by change _ ≤ uid.toInt + 1026; omega)
    (by change uid.toInt + 1026 < _; omega)

theorem toInt_webPort_of_fits : (webPort uid).toInt = uid.toInt + 1027 := by
  rw [toInt_webPort]
  exact Int.bmod_eq_of_le (by omega) (by omega)

/-- **What is answered**: neither `toInt` nor `abs` changes the sum. -/
theorem toInt_getPort (millis : BitVec 64) :
    (getPort uid millis).toInt = 1024 + uid.toInt + offset millis := by
  obtain ⟨hneg, hpos⟩ := offset_lt millis
  have hsum : (1024 + uid).toInt = 1024 + uid.toInt :=
    toInt_add_of_fits (x := 1024) (by change _ ≤ 1024 + uid.toInt; omega)
      (by change 1024 + uid.toInt < _; omega)
  have hrem : (millis.srem 10000).toInt = offset millis := BitVec.toInt_srem millis 10000
  have hlong : ((1024 + uid).signExtend 64 + millis.srem 10000).toInt =
    1024 + uid.toInt + offset millis := by
    rw [BitVec.toInt_add, BitVec.toInt_signExtend_of_le (by omega), hsum, hrem]
    exact Int.bmod_eq_of_le (by omega) (by omega)
  have hnat : (((1024 + uid).signExtend 64 + millis.srem 10000).toNat : ℤ) =
    1024 + uid.toInt + offset millis := by
    rw [toNat_of_nonneg (by omega), hlong]
  have hint : (randomPort uid millis).toInt = 1024 + uid.toInt + offset millis := by
    rw [randomPort, BitVec.toInt_setWidth, hnat]
    exact Int.bmod_eq_of_le (by omega) (by omega)
  have hmsb : (randomPort uid millis).msb = false := by
    rw [BitVec.msb_eq_toInt, hint]
    exact decide_eq_false (by omega)
  rw [getPort, BitVec.abs, hmsb, if_neg Bool.false_ne_true, hint]

end Fits

/-- The web panel's port fits exactly for small uids. -/
theorem isPort_webPort_iff {uid : BitVec 32} (h : InUserUidPool uid) : IsPort (webPort uid) ↔
    uid.toInt ≤ 64508 := by
  obtain ⟨hlo, hhi⟩ := h
  change 10000 ≤ uid.toInt at hlo
  change uid.toInt < 2147483646 at hhi
  constructor
  · rintro ⟨hport, hport'⟩
    -- above, the port is too large, and negative for the last uids
    rw [toInt_webPort, Int.bmod_eq_emod] at hport hport'
    split_ifs at hport hport' <;> omega
  · intro hsmall
    rw [IsPort, toInt_webPort_of_fits hlo hsmall]
    omega

/-- **The ports can be used** exactly if the uid is small and the clock adds neither too much nor
the offset of another port. -/
theorem usable_iff {uid : BitVec 32} (h : InUserUidPool uid) (millis : BitVec 64) :
    Usable uid millis ↔
    uid.toInt ≤ 64508 ∧ uid.toInt + 1024 + offset millis ≤ 65535 ∧ offset millis ≠ 2 ∧
      offset millis ≠ 3 := by
  have hlo : 10000 ≤ uid.toInt := h.1
  constructor
  · intro husable
    have hsmall := (isPort_webPort_iff h).mp husable.web
    have hanswered := husable.answered.2
    rw [toInt_getPort hlo hsmall] at hanswered
    refine ⟨hsmall, by omega, fun htwo => husable.ne_akka ?_, fun hthree => husable.ne_web ?_⟩
    · rw [← BitVec.toInt_inj, toInt_getPort hlo hsmall, toInt_akkaPort hlo hsmall]
      omega
    · rw [← BitVec.toInt_inj, toInt_getPort hlo hsmall, toInt_webPort_of_fits hlo hsmall]
      omega
  · rintro ⟨hsmall, hsum, htwo, hthree⟩
    have hanswered := toInt_getPort hlo hsmall millis
    have hoffset := offset_lt millis
    refine ⟨?_, (isPort_webPort_iff h).mpr hsmall, ?_, fun heq => htwo ?_, fun heq => hthree ?_⟩
    · rw [IsPort, toInt_akkaPort hlo hsmall]
      omega
    · rw [IsPort, hanswered]
      omega
    · rw [← BitVec.toInt_inj, hanswered, toInt_akkaPort hlo hsmall] at heq
      omega
    · rw [← BitVec.toInt_inj, hanswered, toInt_webPort_of_fits hlo hsmall] at heq
      omega

/-- The first uid of the pool, at a full second. -/
theorem usable_first : Usable 10000 1000000 :=
  (@usable_iff 10000 ⟨by decide, by decide⟩ 1000000).mpr
    ⟨by decide, by decide, by decide, by decide⟩

/-- Two milliseconds after a multiple of ten seconds the answered port is the akka port. -/
theorem not_usable_akka : ¬ Usable 10000 1300000000002 := fun h => h.ne_akka (by decide)

end ServeD.Managers.HeadlessPorts
