import PerfProf.Clock.Tsc

namespace PerfProf.Clock

open PerfProf.Data

inductive TscScaling where
  | unsupported | intel | amd
  deriving DecidableEq, Repr

namespace TscScaling

def fracBits : TscScaling → Nat
  | .unsupported => 0
  | .intel => 48
  | .amd => 32

def defaultRatio : TscScaling → BitVec 64
  | .unsupported => 0
  | scaling => 1#64 <<< scaling.fracBits

end TscScaling

/-- The fields of `struct vcpu_data` and its `pvti` that are read. -/
structure Vcpu where
  tscTimestamp : BitVec 64
  systemTime : BitVec 64
  tscToSystemMul : BitVec 32
  tscShift : BitVec 8
  tscOffset : BitVec 64
  tscScalingRatio : BitVec 64

def mulU64U64Shr (a mul : BitVec 64) (shift : Nat) : BitVec 64 :=
  ((a.setWidth 128 * mul.setWidth 128) >>> shift).setWidth 64

/-- `mul_u64_u64_div64()`; `divq` traps when the quotient does not fit. -/
def mulU64U64Div64 (a b c : BitVec 64) : Option (BitVec 64) :=
  let quotient := a.toNat * b.toNat / c.toNat
  if c = 0 ∨ 2 ^ 64 ≤ quotient then none else some (BitVec.ofNat 64 quotient)

def pvclockScaleDelta (delta : BitVec 64) (mulFrac : BitVec 32) (shift : Int) :
    BitVec 64 :=
  let delta :=
    if shift < 0 then delta >>> (-shift).toNat else delta <<< shift.toNat
  mulU64U32Shr delta mulFrac 32

section Convert

variable (scaling : TscScaling) (vcpu : Vcpu)

def kvmScaleTsc (tsc : BitVec 64) : BitVec 64 :=
  if vcpu.tscScalingRatio ≠ scaling.defaultRatio then
    mulU64U64Shr tsc vcpu.tscScalingRatio scaling.fracBits
  else tsc

def kvmReadL1Tsc (hostTsc : BitVec 64) : BitVec 64 :=
  vcpu.tscOffset + kvmScaleTsc scaling vcpu hostTsc

def hostTscToKvmclock (hostTsc : BitVec 64) : BitVec 64 :=
  vcpu.systemTime + pvclockScaleDelta (kvmReadL1Tsc scaling vcpu hostTsc - vcpu.tscTimestamp)
      vcpu.tscToSystemMul vcpu.tscShift.toInt

/-- `kvmclock_to_perfclock()` up to its last line. -/
def kvmclockToHostTsc (time : BitVec 64) : Option (BitVec 64) := do
  let tscShift := vcpu.tscShift.toInt - 32
  let tscShift := if tscShift < 0 then -tscShift else tscShift
  let offset := time - vcpu.systemTime
  let delta ← mulU64U64Div64 offset (1#64 <<< tscShift.toNat) (vcpu.tscToSystemMul.setWidth 64)
  let guestTsc := delta + vcpu.tscTimestamp
  if vcpu.tscScalingRatio ≠ scaling.defaultRatio then
    mulU64U64Div64 guestTsc scaling.defaultRatio vcpu.tscScalingRatio
  else return guestTsc - vcpu.tscOffset

def kvmclockToPerfclock (tc : TscConversion) (time : BitVec 64) :
    Option (BitVec 64) :=
  (kvmclockToHostTsc scaling vcpu time).map tc.tscToPerfclock

def guestRounding : Nat :=
  2 ^ (-vcpu.tscShift.toInt).toNat - 1 +
    ceilDiv (2 ^ (32 - vcpu.tscShift.toInt).toNat) vcpu.tscToSystemMul.toNat

def rounding : Nat :=
  if vcpu.tscScalingRatio = scaling.defaultRatio then guestRounding vcpu
  else
    ceilDiv (guestRounding vcpu * 2 ^ scaling.fracBits) vcpu.tscScalingRatio.toNat +
      ceilDiv (2 ^ scaling.fracBits) vcpu.tscScalingRatio.toNat

def Inverts (hostTsc : BitVec 64) : Prop :=
  ∃ host, kvmclockToHostTsc scaling vcpu (hostTscToKvmclock scaling vcpu hostTsc) = some host ∧
    host.toNat ≤ hostTsc.toNat ∧
    hostTsc.toNat ≤ host.toNat + rounding scaling vcpu

/-- The perf clock of the host's TSC comes back. -/
def InvertsPerfclock (tc : TscConversion) (hostTsc : BitVec 64) : Prop :=
  ∃ perf, kvmclockToPerfclock scaling vcpu tc
      (hostTscToKvmclock scaling vcpu hostTsc) = some perf ∧
    perf.toNat ≤ (tc.tscToPerfclock hostTsc).toNat ∧
    (tc.tscToPerfclock hostTsc).toNat ≤
      perf.toNat + ceilDiv (rounding scaling vcpu * tc.mult) (2 ^ tc.timeShift)

def guestDelta (hostTsc : BitVec 64) : Nat :=
  (kvmReadL1Tsc scaling vcpu hostTsc - vcpu.tscTimestamp).toNat

structure InRange (hostTsc : BitVec 64) : Prop where
  shift : -32 < vcpu.tscShift.toInt
  scaled : vcpu.tscScalingRatio ≠ scaling.defaultRatio →
    hostTsc.toNat * vcpu.tscScalingRatio.toNat / 2 ^ scaling.fracBits < 2 ^ 64
  shifted : guestDelta scaling vcpu hostTsc * 2 ^ vcpu.tscShift.toInt.toNat < 2 ^ 64
  positive : guestRounding vcpu ≤ (kvmScaleTsc scaling vcpu hostTsc).toNat

end Convert

theorem mulU64U64Div64_eq (hpositive : 0 < c.toNat)
    (hfits : a.toNat * b.toNat / c.toNat < 2 ^ 64) :
    ∃ q, mulU64U64Div64 a b c = some q ∧
      q.toNat = a.toNat * b.toNat / c.toNat := by
  have hzero : c ≠ 0 := by
    rintro rfl
    cases hpositive
  refine ⟨BitVec.ofNat 64 (a.toNat * b.toNat / c.toNat), ?_, ?_⟩
  · rw [mulU64U64Div64, if_neg (not_or.mpr ⟨hzero, Nat.not_le.mpr hfits⟩)]
  · rw [BitVec.toNat_ofNat, Nat.mod_eq_of_lt hfits]

theorem mulU64U64Div64_some (hsome : mulU64U64Div64 a b c = some q) :
    q.toNat = a.toNat * b.toNat / c.toNat := by
  rw [mulU64U64Div64] at hsome
  split at hsome
  · cases hsome
  · rename_i hfits
    cases hsome
    exact (BitVec.toNat_ofNat _ _).trans (Nat.mod_eq_of_lt (Nat.not_le.mp (not_or.mp hfits).2))

theorem toNat_pvclockScaleDelta (hshift : shift ≤ 32)
    (hfits : delta.toNat * 2 ^ shift.toNat < 2 ^ 64) :
    (pvclockScaleDelta delta mulFrac shift).toNat =
      delta.toNat / 2 ^ (-shift).toNat * 2 ^ (-shift).toNat * mulFrac.toNat /
        2 ^ (32 - shift).toNat := by
  have hproduct : ∀ wide : BitVec 64, (mulU64U32Shr wide mulFrac 32).toNat =
        wide.toNat * mulFrac.toNat / 2 ^ 32 := by
    intro wide
    have hless : wide.toNat * mulFrac.toNat < 2 ^ 64 * 2 ^ 32 :=
      Nat.mul_lt_mul'' wide.isLt mulFrac.isLt
    rw [toNat_mulU64U32Shr, Nat.mod_eq_of_lt (Nat.div_lt_of_lt_mul (by omega))]
  unfold pvclockScaleDelta
  by_cases hnegative : shift < 0
  · have hpow : (2 : Nat) ^ (32 - shift).toNat = 2 ^ (-shift).toNat * 2 ^ 32 := by
      rw [← Nat.pow_add]
      congr 1
      omega
    rw [if_pos hnegative, hproduct, BitVec.toNat_ushiftRight,
      Nat.shiftRight_eq_div_pow, hpow, Nat.mul_right_comm,
      Nat.mul_comm _ (2 ^ (-shift).toNat),
      Nat.mul_div_mul_left _ _ (Nat.two_pow_pos _)]
  · have hpow : (2 : Nat) ^ 32 = 2 ^ (32 - shift).toNat * 2 ^ shift.toNat := by
      rw [← Nat.pow_add]
      congr 1
      omega
    have hnone : (-shift).toNat = 0 := by omega
    rw [if_neg hnegative, hproduct, BitVec.toNat_shiftLeft, Nat.shiftLeft_eq,
      Nat.mod_eq_of_lt hfits, hpow, Nat.mul_right_comm,
      Nat.mul_div_mul_right _ _ (Nat.two_pow_pos _), hnone, Nat.pow_zero,
      Nat.div_one, Nat.mul_one]

section Inverse

variable {scaling : TscScaling} {vcpu : Vcpu} {hostTsc : BitVec 64}

theorem guestTsc_recovered (hmul : 0 < vcpu.tscToSystemMul.toNat)
    (hshift : vcpu.tscShift.toInt ≤ 32)
    (range : InRange scaling vcpu hostTsc) :
    ∃ lost, lost ≤ guestRounding vcpu ∧
      kvmclockToHostTsc scaling vcpu
          (hostTscToKvmclock scaling vcpu hostTsc) =
        (let guestTsc :=
          kvmReadL1Tsc scaling vcpu hostTsc - BitVec.ofNat 64 lost
        if vcpu.tscScalingRatio ≠ scaling.defaultRatio then
          mulU64U64Div64 guestTsc scaling.defaultRatio vcpu.tscScalingRatio
        else some (guestTsc - vcpu.tscOffset)) := by
  have hwide : (vcpu.tscToSystemMul.setWidth 64).toNat =
      vcpu.tscToSystemMul.toNat := BitVec.toNat_setWidth_of_le (by decide)
  have hunit : (1#64 <<< (32 - vcpu.tscShift.toInt).toNat).toNat =
      2 ^ (32 - vcpu.tscShift.toInt).toNat := by
    have hless : (2 : Nat) ^ (32 - vcpu.tscShift.toInt).toNat < 2 ^ 64 :=
      Nat.pow_lt_pow_right (by decide) (by have := range.shift; omega)
    rw [BitVec.toNat_shiftLeft, Nat.shiftLeft_eq]
    change 1 * _ % 2 ^ 64 = _
    rw [Nat.one_mul, Nat.mod_eq_of_lt hless]
  have hsign : (if vcpu.tscShift.toInt - 32 < 0 then
      -(vcpu.tscShift.toInt - 32) else vcpu.tscShift.toInt - 32) =
      32 - vcpu.tscShift.toInt := by
    split <;> omega
  have hunder := range.shift
  let clock := pvclockScaleDelta (kvmReadL1Tsc scaling vcpu hostTsc - vcpu.tscTimestamp)
    vcpu.tscToSystemMul vcpu.tscShift.toInt
  let kept := guestDelta scaling vcpu hostTsc / 2 ^ (-vcpu.tscShift.toInt).toNat *
    2 ^ (-vcpu.tscShift.toInt).toNat
  have hclock : clock.toNat = kept * vcpu.tscToSystemMul.toNat /
      2 ^ (32 - vcpu.tscShift.toInt).toNat :=
    toNat_pvclockScaleDelta hshift range.shifted
  have hkept : kept ≤ guestDelta scaling vcpu hostTsc := Nat.div_mul_le_self _ _
  have hdropped : guestDelta scaling vcpu hostTsc < kept + 2 ^ (-vcpu.tscShift.toInt).toNat :=
    Nat.lt_div_mul_add (Nat.two_pow_pos _)
  have hback : clock.toNat * 2 ^ (32 - vcpu.tscShift.toInt).toNat /
      vcpu.tscToSystemMul.toNat ≤ kept := by
    rw [hclock]
    exact mul_div_mul_div_le _ _ _
  have hlost : kept ≤ clock.toNat * 2 ^ (32 - vcpu.tscShift.toInt).toNat /
      vcpu.tscToSystemMul.toNat + ceilDiv (2 ^ (32 - vcpu.tscShift.toInt).toNat)
          vcpu.tscToSystemMul.toNat := by
    rw [hclock]
    exact le_mul_div_mul_div (Nat.two_pow_pos _) hmul _
  have hless : guestDelta scaling vcpu hostTsc < 2 ^ 64 := BitVec.isLt _
  obtain ⟨delta, hdelta, hvalue⟩ := @mulU64U64Div64_eq clock
    (1#64 <<< (32 - vcpu.tscShift.toInt).toNat)
    (vcpu.tscToSystemMul.setWidth 64)
    (by rw [hwide]; exact hmul) (by rw [hwide, hunit]; omega)
  rw [hwide, hunit] at hvalue
  refine ⟨guestDelta scaling vcpu hostTsc - delta.toNat, ?_, ?_⟩
  · unfold guestRounding
    omega
  · have htime : hostTscToKvmclock scaling vcpu hostTsc - vcpu.systemTime =
        clock := by
      rw [hostTscToKvmclock, BitVec.add_comm]
      exact BitVec.add_sub_cancel _ _
    have hsame : delta + vcpu.tscTimestamp = kvmReadL1Tsc scaling vcpu hostTsc -
          BitVec.ofNat 64 (guestDelta scaling vcpu hostTsc - delta.toNat) := by
      have hle : delta.toNat ≤ guestDelta scaling vcpu hostTsc := by omega
      unfold guestDelta at hle ⊢
      bv_omega
    rw [kvmclockToHostTsc]
    simp only [hsign, htime, hdelta, ← hsame]
    rfl

theorem guestRounding_pos (hmul : 0 < vcpu.tscToSystemMul.toNat) :
    0 < guestRounding vcpu := by
  have hceil := le_ceilDiv_mul hmul (2 ^ (32 - vcpu.tscShift.toInt).toNat)
  have hunit : 0 < 2 ^ (32 - vcpu.tscShift.toInt).toNat := Nat.two_pow_pos _
  have hfactor := Nat.pos_of_mul_pos_right (Nat.lt_of_lt_of_le hunit hceil)
  unfold guestRounding
  omega

theorem toNat_kvmScaleTsc (range : InRange scaling vcpu hostTsc)
    (hratio : vcpu.tscScalingRatio ≠ scaling.defaultRatio) :
    (kvmScaleTsc scaling vcpu hostTsc).toNat =
      hostTsc.toNat * vcpu.tscScalingRatio.toNat / 2 ^ scaling.fracBits := by
  have hwide : ∀ word : BitVec 64, (word.setWidth 128).toNat = word.toNat :=
    fun _ => BitVec.toNat_setWidth_of_le (by decide)
  rw [kvmScaleTsc, if_pos hratio, mulU64U64Shr, toNat_mul_shr, hwide, hwide,
    Nat.mod_eq_of_lt (range.scaled hratio)]
  · rw [hwide]
    exact hostTsc.isLt
  · rw [hwide]
    exact vcpu.tscScalingRatio.isLt

theorem toNat_defaultRatio (hscaling : scaling ≠ .unsupported) :
    scaling.defaultRatio.toNat = 2 ^ scaling.fracBits := by
  cases scaling with
  | unsupported => exact absurd rfl hscaling
  | intel => rfl
  | amd => rfl

def Displaced (scaling : TscScaling) (vcpu : Vcpu) (hostTsc : BitVec 64) :
    Prop :=
  let scaled := (kvmScaleTsc scaling vcpu hostTsc).toNat
  let offset := vcpu.tscOffset.toNat
  let unscale := fun tsc => tsc * 2 ^ scaling.fracBits / vcpu.tscScalingRatio.toNat
  offset + scaled < 2 ^ 64 ∧ rounding scaling vcpu < unscale offset ∨
    2 ^ 64 + guestRounding vcpu ≤ offset + scaled ∧
      rounding scaling vcpu < unscale (2 ^ 64 - offset)

theorem hostTsc_inverts (hmul : 0 < vcpu.tscToSystemMul.toNat)
    (hshift : vcpu.tscShift.toInt ≤ 32)
    (range : InRange scaling vcpu hostTsc) :
    (vcpu.tscScalingRatio = scaling.defaultRatio ∨
      scaling ≠ .unsupported ∧ vcpu.tscOffset = 0 →
        Inverts scaling vcpu hostTsc) ∧
    (vcpu.tscScalingRatio ≠ scaling.defaultRatio → scaling ≠ .unsupported →
      Displaced scaling vcpu hostTsc → ¬ Inverts scaling vcpu hostTsc) := by
  obtain ⟨lost, hlost, hinverse⟩ := guestTsc_recovered hmul hshift range
  have hpositive := range.positive
  have hrounding := @guestRounding_pos vcpu hmul
  have hunit : 0 < 2 ^ scaling.fracBits := Nat.two_pow_pos _
  by_cases hratio : vcpu.tscScalingRatio = scaling.defaultRatio
  · refine ⟨fun _ => ⟨_, hinverse.trans (if_neg (not_not_intro hratio)), ?_⟩,
      fun hother => absurd hratio hother⟩
    rw [kvmScaleTsc, if_neg (not_not_intro hratio)] at hpositive
    have hhost : (kvmReadL1Tsc scaling vcpu hostTsc - BitVec.ofNat 64 lost -
        vcpu.tscOffset).toNat = hostTsc.toNat - lost := by
      rw [kvmReadL1Tsc, kvmScaleTsc, if_neg (not_not_intro hratio)]
      bv_omega
    rw [hhost, rounding, if_pos hratio]
    omega
  · have hscaled := toNat_kvmScaleTsc range hratio
    have hnonzero : 0 < vcpu.tscScalingRatio.toNat := by
      refine Nat.pos_of_ne_zero fun hzero => ?_
      rw [hzero, Nat.mul_zero, Nat.zero_div] at hscaled
      omega
    rw [hscaled] at hpositive
    rw [if_pos hratio] at hinverse
    have hbounds := fun lost hlost => @sub_mul_div_bounds _ _ lost _ hunit
      hnonzero hostTsc.toNat hlost hpositive
    constructor
    · rintro (hsame | ⟨hscaling, hoffset⟩)
      · exact absurd hsame hratio
      · have hguest : (kvmReadL1Tsc scaling vcpu hostTsc -
            BitVec.ofNat 64 lost).toNat = hostTsc.toNat *
              vcpu.tscScalingRatio.toNat / 2 ^ scaling.fracBits - lost := by
          rw [← hscaled] at hpositive ⊢
          rw [kvmReadL1Tsc, hoffset]
          bv_omega
        have hless := hostTsc.isLt
        have hends := hbounds lost hlost
        obtain ⟨host, hhost, hvalue⟩ := @mulU64U64Div64_eq
          (kvmReadL1Tsc scaling vcpu hostTsc - BitVec.ofNat 64 lost)
          scaling.defaultRatio vcpu.tscScalingRatio hnonzero (by
            rw [hguest, toNat_defaultRatio hscaling]
            omega)
        rw [hguest, toNat_defaultRatio hscaling] at hvalue
        refine ⟨host, hinverse.trans hhost, ?_⟩
        rw [hvalue, rounding, if_neg hratio]
        exact hends
    · rintro _ hscaling displaced ⟨host, hhost, hbelow, habove⟩
      have hvalue := mulU64U64Div64_some (hinverse.symm.trans hhost)
      have hends := hbounds lost hlost
      rw [rounding, if_neg hratio] at habove
      rw [toNat_defaultRatio hscaling] at hvalue
      have hadd : ∀ first second : Nat, first * 2 ^ scaling.fracBits / vcpu.tscScalingRatio.toNat +
            second * 2 ^ scaling.fracBits / vcpu.tscScalingRatio.toNat ≤
          (first + second) * 2 ^ scaling.fracBits /
            vcpu.tscScalingRatio.toNat := by
        intro first second
        rw [Nat.add_mul]
        exact Nat.div_add_div_le_add_div
      rw [← hscaled] at hends hpositive
      rcases displaced with ⟨hfits, hfar⟩ | ⟨hwraps, hfar⟩
      · have hguest : (kvmReadL1Tsc scaling vcpu hostTsc - BitVec.ofNat 64 lost).toNat =
              (kvmScaleTsc scaling vcpu hostTsc).toNat - lost +
                vcpu.tscOffset.toNat := by
          rw [kvmReadL1Tsc]
          bv_omega
        have hsum := hadd ((kvmScaleTsc scaling vcpu hostTsc).toNat - lost) vcpu.tscOffset.toNat
        rw [hguest] at hvalue
        rw [rounding, if_neg hratio] at hfar
        dsimp only at hfar
        omega
      · have hguest : (kvmReadL1Tsc scaling vcpu hostTsc -
            BitVec.ofNat 64 lost).toNat + (2 ^ 64 - vcpu.tscOffset.toNat) =
              (kvmScaleTsc scaling vcpu hostTsc).toNat - lost := by
          rw [kvmReadL1Tsc]
          bv_omega
        have hsum := hadd (kvmReadL1Tsc scaling vcpu hostTsc -
          BitVec.ofNat 64 lost).toNat (2 ^ 64 - vcpu.tscOffset.toNat)
        rw [hguest] at hsum
        rw [rounding, if_neg hratio] at hfar
        dsimp only at hfar
        omega

/-- The last line is monotone and scales the rounding. -/
theorem Inverts.perfclock (inverts : Inverts scaling vcpu hostTsc)
    {tc : TscConversion} (fits : tc.Converts hostTsc) :
    InvertsPerfclock scaling vcpu tc hostTsc := by
  obtain ⟨host, hhost, hbelow, habove⟩ := inverts
  have hmono : host.toNat * tc.mult / 2 ^ tc.timeShift ≤
      hostTsc.toNat * tc.mult / 2 ^ tc.timeShift :=
    Nat.div_le_div_right (Nat.mul_le_mul_right _ hbelow)
  have hscaled : hostTsc.toNat * tc.mult / 2 ^ tc.timeShift ≤
      host.toNat * tc.mult / 2 ^ tc.timeShift +
        ceilDiv (rounding scaling vcpu * tc.mult) (2 ^ tc.timeShift) := by
    refine le_trans (Nat.div_le_div_right (Nat.mul_le_mul_right _ habove)) ?_
    rw [Nat.add_mul]
    exact add_div_le_add_ceilDiv (Nat.two_pow_pos _) _ _
  have hfits : tc.Converts host := by
    unfold TscConversion.Converts at fits ⊢
    omega
  refine ⟨tc.tscToPerfclock host, by rw [kvmclockToPerfclock, hhost]; rfl, ?_⟩
  rw [fits.toNat, hfits.toNat]
  omega

/-- With the default ratio, or without an offset, the conversion is inverted up
to rounding.  With another ratio the offset is not taken off, so that it is not
inverted when the offset counts. -/
theorem kvmclock_inverts (hmul : 0 < vcpu.tscToSystemMul.toNat)
    (hshift : vcpu.tscShift.toInt ≤ 32)
    (range : InRange scaling vcpu hostTsc) :
    (vcpu.tscScalingRatio = scaling.defaultRatio ∨
      scaling ≠ .unsupported ∧ vcpu.tscOffset = 0 →
        Inverts scaling vcpu hostTsc ∧
        ∀ tc : TscConversion, tc.Converts hostTsc →
          InvertsPerfclock scaling vcpu tc hostTsc) ∧
    (vcpu.tscScalingRatio ≠ scaling.defaultRatio → scaling ≠ .unsupported →
      Displaced scaling vcpu hostTsc → ¬ Inverts scaling vcpu hostTsc) := by
  obtain ⟨hinverts, hdisplaced⟩ := hostTsc_inverts hmul hshift range
  refine ⟨fun hratio => ⟨hinverts hratio, fun tc fits => ?_⟩, hdisplaced⟩
  exact (hinverts hratio).perfclock fits

end Inverse

def scaledVcpu : Vcpu := ⟨0, 0, 0x80000000, 1, 0x100000, 1 <<< 49⟩

def shiftedVcpu : Vcpu := ⟨0, 0, 1, 33, 0, 1 <<< 48⟩

/-- The host's TSC comes back half the offset too large; a shift above 32 is
undone the wrong way. -/
theorem kvmclock_not_inverted :
    kvmclockToHostTsc .intel scaledVcpu
        (hostTscToKvmclock .intel scaledVcpu 0x1000000) = some 0x1080000 ∧
      rounding .intel scaledVcpu = 2 ∧
      kvmclockToHostTsc .intel shiftedVcpu
        (hostTscToKvmclock .intel shiftedVcpu 8) = some 32 ∧
      rounding .intel shiftedVcpu = 1 := by
  decide +kernel

theorem kvmclock_inverts_scaled :
    Inverts .intel { scaledVcpu with tscOffset := 0 } 0x1000000 ∧
      InvertsPerfclock .intel { scaledVcpu with tscOffset := 0 } ⟨10, 410, 1000⟩
        0x1000000 :=
  have holds := (kvmclock_inverts (by decide) (by decide)
    ⟨by decide, fun _ => by decide, by decide, by decide⟩).1
    (.inr ⟨by decide, rfl⟩)
  ⟨holds.1, holds.2 ⟨10, 410, 1000⟩ (by unfold TscConversion.Converts; decide)⟩

end PerfProf.Clock
