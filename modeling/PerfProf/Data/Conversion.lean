import Mathlib.Algebra.Order.Ring.Int
import Mathlib.Data.BitVec

namespace PerfProf.Data

/-! Integer types of up to eight bytes and the conversions between them. -/

def byteOf {width : Nat} (value : BitVec width) (index : Nat) : BitVec 8 :=
  value.extractLsb' (8 * index) 8

structure IntType where
  bytes : Nat
  unsigned : Bool
  bytes_pos : 0 < bytes
  bytes_le : bytes ≤ 8
  deriving DecidableEq, Repr

theorem getLsbD_of_byteOf
    (hsame : ∀ index, index < count → byteOf x index = byteOf y index)
    (hbit : bit < 8 * count) : x.getLsbD bit = y.getLsbD bit := by
  have hbyte := congrArg (·.getLsbD (bit % 8)) (hsame (bit / 8) (by omega))
  have hplace : 8 * (bit / 8) + bit % 8 = bit := by omega
  simpa [byteOf, hplace, Nat.mod_lt] using hbyte

namespace IntType

def convert (type : IntType) (value : BitVec 64) : BitVec 64 :=
  let narrow := value.setWidth (8 * type.bytes)
  if type.unsigned then narrow.setWidth 64 else narrow.signExtend 64

variable (type : IntType)

theorem getLsbD_convert (value : BitVec 64) (bit : Nat) :
    (type.convert value).getLsbD bit =
      if bit < 8 * type.bytes then
        value.getLsbD bit
      else
        decide (bit < 64) &&
          (!type.unsigned && value.getLsbD (8 * type.bytes - 1)) := by
  have hpos := type.bytes_pos
  have hle := type.bytes_le
  have hlast : 8 * type.bytes - 1 < 8 * type.bytes := by omega
  unfold convert
  cases type.unsigned with
  | true =>
    by_cases hbelow : bit < 8 * type.bytes
    · have hword : bit < 64 := by omega
      simp [hbelow, hword]
    · simp [hbelow]
  | false =>
    simp only [Bool.false_eq_true, if_false, BitVec.getLsbD_signExtend, BitVec.getLsbD_setWidth,
      BitVec.msb_eq_getLsbD_last, hlast, decide_true, Bool.true_and, Bool.not_false]
    by_cases hbelow : bit < 8 * type.bytes
    · have hword : bit < 64 := by omega
      simp [hbelow, hword]
    · simp [hbelow]

theorem convert_congr
    (hsame : ∀ index, index < type.bytes → byteOf x index = byteOf y index) :
    type.convert x = type.convert y := by
  have hpos := type.bytes_pos
  apply BitVec.eq_of_getLsbD_eq
  intro bit _
  rw [getLsbD_convert, getLsbD_convert]
  split
  · exact getLsbD_of_byteOf hsame ‹_›
  · rw [getLsbD_of_byteOf hsame (by omega)]

theorem byteOf_convert (hindex : index < type.bytes) (value : BitVec 64) :
    byteOf (type.convert value) index = byteOf value index := by
  apply BitVec.eq_of_getLsbD_eq
  intro bit hbit
  rw [byteOf, byteOf, BitVec.getLsbD_extractLsb', BitVec.getLsbD_extractLsb',
    getLsbD_convert, if_pos (by omega)]

theorem convert_convert (value : BitVec 64) :
    type.convert (type.convert value) = type.convert value :=
  type.convert_congr fun _ hindex => type.byteOf_convert hindex value

theorem convert_eq_iff : type.convert x = value ↔ type.convert value = value ∧
      ∀ index, index < type.bytes → byteOf x index = byteOf value index := by
  constructor
  · rintro rfl
    exact ⟨type.convert_convert x, fun index hindex => (type.byteOf_convert hindex x).symm⟩
  · rintro ⟨hvalue, hbytes⟩
    rw [type.convert_congr hbytes, hvalue]

end IntType

end PerfProf.Data
