import Mathlib.Data.BitVec
import PerfProf.Data.FixedPoint

namespace PerfProf.Clock

open PerfProf.Data

structure TscConversion where
  timeShift : Nat
  timeMult : BitVec 32
  timeZero : BitVec 64

namespace TscConversion

variable (tc : TscConversion)

def mult : Nat := tc.timeMult.toNat

def perfclockToTsc (ns : BitVec 64) : BitVec 64 :=
  let mult := tc.timeMult.setWidth 64
  let t := ns - tc.timeZero
  let quot := t / mult
  let rem := t % mult
  (quot <<< tc.timeShift) + (rem <<< tc.timeShift) / mult

end TscConversion

/-- `mul_u64_u32_shr()`, the product having 128 bits. -/
def mulU64U32Shr (a : BitVec 64) (b : BitVec 32) (shift : Nat) : BitVec 64 :=
  ((a.setWidth 128 * b.setWidth 128) >>> shift).setWidth 64

def TscConversion.tscToPerfclock (tc : TscConversion) (tsc : BitVec 64) :
    BitVec 64 :=
  mulU64U32Shr tsc tc.timeMult tc.timeShift + tc.timeZero

theorem toNat_mul_shr {a b : BitVec 128} (ha : a.toNat < 2 ^ 64)
    (hb : b.toNat < 2 ^ 64) (shift : Nat) :
    (((a * b) >>> shift).setWidth 64).toNat =
      a.toNat * b.toNat / 2 ^ shift % 2 ^ 64 := by
  have hproduct : a.toNat * b.toNat < 2 ^ 128 := by
    rw [show (2 : Nat) ^ 128 = 2 ^ 64 * 2 ^ 64 by decide]
    exact Nat.mul_lt_mul'' ha hb
  rw [BitVec.toNat_setWidth, BitVec.toNat_ushiftRight, BitVec.toNat_mul,
    Nat.mod_eq_of_lt hproduct, Nat.shiftRight_eq_div_pow]

theorem toNat_mulU64U32Shr (a : BitVec 64) (b : BitVec 32) (shift : Nat) :
    (mulU64U32Shr a b shift).toNat =
      a.toNat * b.toNat / 2 ^ shift % 2 ^ 64 := by
  have ha : (a.setWidth 128).toNat = a.toNat := BitVec.toNat_setWidth_of_le (by decide)
  have hb : (b.setWidth 128).toNat = b.toNat := BitVec.toNat_setWidth_of_le (by decide)
  have hless := b.isLt
  rw [mulU64U32Shr, toNat_mul_shr (by omega) (by omega), ha, hb]

namespace TscConversion

/-- `tsc_to_perfclock()` does not leave 64 bits. -/
def Converts (tc : TscConversion) (tsc : BitVec 64) : Prop :=
  tsc.toNat * tc.mult / 2 ^ tc.timeShift + tc.timeZero.toNat < 2 ^ 64

variable {tc : TscConversion} {ns : BitVec 64}

theorem Converts.toNat {tsc : BitVec 64} (fits : tc.Converts tsc) :
    (tc.tscToPerfclock tsc).toNat =
      tsc.toNat * tc.mult / 2 ^ tc.timeShift + tc.timeZero.toNat := by
  have hscaled := Nat.lt_of_le_of_lt (Nat.le_add_right _ _) fits
  rw [tscToPerfclock, BitVec.toNat_add, toNat_mulU64U32Shr, ← mult,
    Nat.mod_eq_of_lt hscaled, Nat.mod_eq_of_lt fits]

def elapsed (tc : TscConversion) (ns : BitVec 64) : Nat :=
  ns.toNat - tc.timeZero.toNat

def exactTsc (tc : TscConversion) (ns : BitVec 64) : Nat :=
  tc.elapsed ns * 2 ^ tc.timeShift / tc.mult

/-- No shift and no sum of `perfclock_to_tsc()` leaves 64 bits. -/
structure Fits (tc : TscConversion) (ns : BitVec 64) : Prop where
  quot : tc.elapsed ns / tc.mult * 2 ^ tc.timeShift < 2 ^ 64
  rem : tc.elapsed ns % tc.mult * 2 ^ tc.timeShift < 2 ^ 64
  sum : tc.elapsed ns / tc.mult * 2 ^ tc.timeShift +
    tc.elapsed ns % tc.mult * 2 ^ tc.timeShift / tc.mult < 2 ^ 64

theorem fits (hmult : 0 < tc.mult) (hshift : tc.timeShift ≤ 32)
    (hresult : tc.exactTsc ns < 2 ^ 64) : tc.Fits ns := by
  have hsum := div_mul_add_mod_mul_div hmult (tc.elapsed ns) (2 ^ tc.timeShift)
  rw [exactTsc, ← hsum] at hresult
  refine ⟨Nat.lt_of_le_of_lt (Nat.le_add_right _ _) hresult, ?_, hresult⟩
  calc tc.elapsed ns % tc.mult * 2 ^ tc.timeShift
      < tc.mult * 2 ^ tc.timeShift :=
        Nat.mul_lt_mul_of_pos_right (Nat.mod_lt _ hmult) (Nat.two_pow_pos _)
    _ ≤ 2 ^ 32 * 2 ^ 32 :=
        Nat.mul_le_mul (Nat.le_of_lt tc.timeMult.isLt) (Nat.pow_le_pow_right Nat.two_pos hshift)

theorem toNat_perfclockToTsc (hmult : 0 < tc.mult) (hshift : tc.timeShift ≤ 32)
    (hzero : tc.timeZero.toNat ≤ ns.toNat) (hresult : tc.exactTsc ns < 2 ^ 64) :
    (tc.perfclockToTsc ns).toNat = tc.exactTsc ns := by
  obtain ⟨hquot, hrem, hsum⟩ := fits hmult hshift hresult
  have ht : (ns - tc.timeZero).toNat = tc.elapsed ns := BitVec.toNat_sub_of_le hzero
  have hwide : (tc.timeMult.setWidth 64).toNat = tc.mult := BitVec.toNat_setWidth_of_le (by decide)
  rw [perfclockToTsc, BitVec.toNat_add, BitVec.toNat_udiv, BitVec.toNat_shiftLeft,
    BitVec.toNat_shiftLeft, BitVec.toNat_udiv, BitVec.toNat_umod, ht, hwide, Nat.shiftLeft_eq,
    Nat.shiftLeft_eq, Nat.mod_eq_of_lt hquot, Nat.mod_eq_of_lt hrem, Nat.mod_eq_of_lt hsum,
    exactTsc, div_mul_add_mod_mul_div hmult]

theorem toNat_tscToPerfclock (hmult : 0 < tc.mult) (hshift : tc.timeShift ≤ 32)
    (hzero : tc.timeZero.toNat ≤ ns.toNat)
    (hresult : tc.exactTsc ns < 2 ^ 64) :
    (tc.tscToPerfclock (tc.perfclockToTsc ns)).toNat =
      tc.exactTsc ns * tc.mult / 2 ^ tc.timeShift + tc.timeZero.toNat := by
  have hback : tc.exactTsc ns * tc.mult / 2 ^ tc.timeShift ≤ tc.elapsed ns :=
    mul_div_mul_div_le _ _ _
  have hless := ns.isLt
  have helapsed : tc.elapsed ns = ns.toNat - tc.timeZero.toNat := rfl
  have htsc := toNat_perfclockToTsc hmult hshift hzero hresult
  have hfits : tc.Converts (tc.perfclockToTsc ns) := by
    rw [Converts, htsc]
    omega
  rw [hfits.toNat, htsc]

/-- Without leaving 64 bits the conversion is the exact quotient rounded down,
it is monotone, and the way back loses at most one unit of the multiplier. -/
theorem perfclock_round_trip (hmult : 0 < tc.mult) (hshift : tc.timeShift ≤ 32)
    (hzero : tc.timeZero.toNat ≤ ns.toNat) (hresult : tc.exactTsc ns < 2 ^ 64) :
    tc.Fits ns ∧
    (tc.perfclockToTsc ns).toNat = tc.exactTsc ns ∧
    (∀ earlier : BitVec 64, tc.timeZero.toNat ≤ earlier.toNat →
      earlier.toNat ≤ ns.toNat →
      (tc.perfclockToTsc earlier).toNat ≤ (tc.perfclockToTsc ns).toNat) ∧
    (tc.tscToPerfclock (tc.perfclockToTsc ns)).toNat ≤ ns.toNat ∧
    ns.toNat ≤
      (tc.tscToPerfclock (tc.perfclockToTsc ns)).toNat +
        ceilDiv tc.mult (2 ^ tc.timeShift) := by
  have hscale : 0 < 2 ^ tc.timeShift := Nat.two_pow_pos _
  have helapsed : tc.elapsed ns = ns.toNat - tc.timeZero.toNat := rfl
  refine ⟨fits hmult hshift hresult, toNat_perfclockToTsc hmult hshift hzero hresult, ?_, ?_, ?_⟩
  · intro earlier hearlier hle
    have hexact : tc.exactTsc earlier ≤ tc.exactTsc ns :=
      Nat.div_le_div_right (Nat.mul_le_mul_right _ (Nat.sub_le_sub_right hle _))
    rw [toNat_perfclockToTsc hmult hshift hzero hresult, toNat_perfclockToTsc hmult hshift hearlier
        (Nat.lt_of_le_of_lt hexact hresult)]
    exact hexact
  · rw [toNat_tscToPerfclock hmult hshift hzero hresult]
    have hback : tc.exactTsc ns * tc.mult / 2 ^ tc.timeShift ≤ tc.elapsed ns :=
      mul_div_mul_div_le _ _ _
    omega
  · rw [toNat_tscToPerfclock hmult hshift hzero hresult]
    have hback : tc.elapsed ns ≤ tc.exactTsc ns * tc.mult / 2 ^ tc.timeShift + ceilDiv tc.mult (2 ^
        tc.timeShift) := le_mul_div_mul_div hmult hscale _
    omega

end TscConversion

theorem perfclock_round_trip_second :
    let tc : TscConversion := ⟨10, 410, 1000⟩
    (tc.perfclockToTsc 1000001000).toNat = 2497560975 ∧
      (tc.tscToPerfclock (tc.perfclockToTsc 1000001000)).toNat ≤ 1000001000 :=
  have holds := @TscConversion.perfclock_round_trip ⟨10, 410, 1000⟩ 1000001000
    (by decide) (by decide) (by decide) (by decide)
  ⟨holds.2.1.trans (by decide), holds.2.2.2.1⟩

end PerfProf.Clock
