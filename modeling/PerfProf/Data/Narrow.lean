import Mathlib.Algebra.Order.Ring.Int
import Mathlib.Data.BitVec

namespace PerfProf.Data

theorem setWidth_sub (x y : BitVec width) (hle : narrow ≤ width) :
    (x - y).setWidth narrow = x.setWidth narrow - y.setWidth narrow := by
  rw [BitVec.sub_eq_add_neg, BitVec.setWidth_add x _ hle,
    BitVec.setWidth_neg_of_le hle, BitVec.sub_eq_add_neg]

theorem setWidth_signExtend (x : BitVec from_) (hle : narrow ≤ width) :
    (x.signExtend width).setWidth narrow = x.signExtend narrow := by
  apply BitVec.eq_of_getLsbD_eq
  intro index hindex
  have hwidth : index < width := Nat.lt_of_lt_of_le hindex hle
  rw [BitVec.getLsbD_setWidth, BitVec.getLsbD_signExtend, BitVec.getLsbD_signExtend]
  simp only [hindex, hwidth, decide_true, Bool.true_and]

theorem setWidth_twoPow (index : Nat) (hle : narrow ≤ width) :
    (BitVec.twoPow width index).setWidth narrow =
      BitVec.twoPow narrow index := by
  apply BitVec.eq_of_getLsbD_eq
  intro bit hbit
  have hwidth : bit < width := Nat.lt_of_lt_of_le hbit hle
  simp only [BitVec.getLsbD_setWidth, BitVec.getLsbD_twoPow, hbit, decide_true, Bool.true_and]
  by_cases heq : index = bit
  · simp [heq, hbit, hwidth]
  · simp [heq]

theorem setWidth_ushiftRight_narrow (x : BitVec width) (count : Nat)
    (hle : narrow ≤ width) :
    ((x.setWidth narrow).setWidth width >>> count).setWidth narrow =
      x.setWidth narrow >>> count :=
    by
  rw [← BitVec.setWidth_ushiftRight hle, BitVec.setWidth_setWidth_of_le _ hle, BitVec.setWidth_eq]

theorem setWidth_sshiftRight_narrow (x : BitVec width) (count : Nat)
    (hle : narrow ≤ width) (hpos : 0 < narrow) :
    (((x.setWidth narrow).signExtend width).sshiftRight count).setWidth narrow =
      (x.setWidth narrow).sshiftRight count := by
  generalize x.setWidth narrow = value
  have hmsb : (value.signExtend width).msb = value.msb := by
    rw [BitVec.msb_eq_getLsbD_last, BitVec.getLsbD_signExtend]
    by_cases hwidth : width - 1 < narrow
    · have hequal : width = narrow := by omega
      subst hequal
      simp [hwidth, BitVec.msb_eq_getLsbD_last]
    · simp [hwidth, show width - 1 < width by omega]
  apply BitVec.eq_of_getLsbD_eq
  intro index hindex
  simp only [BitVec.getLsbD_setWidth, BitVec.getLsbD_sshiftRight, hmsb,
    BitVec.getLsbD_signExtend, hindex, decide_true, Bool.true_and]
  have hinside : ¬ width ≤ index := by omega
  have hnarrow : ¬ narrow ≤ index := by omega
  by_cases hshort : count + index < narrow
  · have hwide : count + index < width := by omega
    simp [hshort, hwide, hinside, hnarrow]
  · simp only [hshort, hinside, hnarrow, if_false, decide_false, Bool.not_false, Bool.true_and]
    split <;> simp_all

theorem setWidth_insert (x : BitVec width) (value : BitVec narrow)
    (hle : narrow ≤ width) :
    ((x &&& ~~~ (BitVec.allOnes narrow).setWidth width) |||
      value.setWidth width).setWidth narrow = value := by
  rw [BitVec.setWidth_or, BitVec.setWidth_and, BitVec.setWidth_not hle,
    BitVec.setWidth_setWidth_of_le _ hle, BitVec.setWidth_setWidth_of_le _ hle, BitVec.setWidth_eq,
    BitVec.setWidth_eq, BitVec.not_allOnes, BitVec.and_zero, BitVec.zero_or]

end PerfProf.Data
