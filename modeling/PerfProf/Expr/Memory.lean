import Mathlib.Data.BitVec
import PerfProf.Expr.Word

namespace PerfProf.Expr

namespace Mem

theorem bytes_lt (mem : Mem) (addr : Word) (count : Nat) :
    mem.bytes addr count < 256 ^ count := by
  induction count generalizing addr with
  | zero => exact Nat.one_pos
  | succ count ih =>
    have hrest := ih (addr + 1)
    have hbyte := (mem addr).isLt
    rw [bytes, Nat.pow_succ]
    omega

variable {addr other : Word}

variable {mem : Mem}

theorem bytes_congr {other : Mem} {addr : Word}
    (hsame : ∀ index, index < count →
      mem (addr + BitVec.ofNat 64 index) =
        other (addr + BitVec.ofNat 64 index)) :
    mem.bytes addr count = other.bytes addr count := by
  induction count generalizing addr with
  | zero => rfl
  | succ count ih =>
    have hfirst : mem addr = other addr := by simpa using hsame 0 (Nat.succ_pos count)
    rw [bytes, bytes, hfirst, ih]
    intro index hindex
    have hnext := hsame (index + 1) (Nat.succ_lt_succ hindex)
    rw [BitVec.ofNat_add, BitVec.add_comm (BitVec.ofNat 64 index), ← BitVec.add_assoc] at hnext
    exact hnext

theorem toNat_sub_succ (hahead : count + 1 ≤ (other - addr).toNat) :
    count ≤ (other - (addr + 1)).toNat := by
  bv_omega

theorem store_other (hahead : count ≤ (other - addr).toNat) (value : Word) :
    mem.store addr count value other = mem other := by
  induction count generalizing mem addr value with
  | zero => rfl
  | succ count ih =>
    rw [store, ih (toNat_sub_succ hahead), set, if_neg]
    rintro rfl
    simp at hahead

theorem toNat_bytes (value : Word) (count : Nat) :
    (value.truncate 8).toNat + 256 * ((value >>> 8).toNat % 256 ^ count) =
      value.toNat % 256 ^ (count + 1) := by
  rw [BitVec.truncate, BitVec.toNat_setWidth, BitVec.toNat_ushiftRight,
    Nat.shiftRight_eq_div_pow, @Nat.pow_succ' 256, Nat.mod_mul]

theorem bytes_store (hcount : count ≤ 2 ^ 64) (mem : Mem) (addr value : Word) :
    (mem.store addr count value).bytes addr count =
      value.toNat % 256 ^ count := by
  induction count generalizing mem addr value with
  | zero => rw [bytes, Nat.pow_zero, Nat.mod_one]
  | succ count ih =>
    have hfirst : mem.store addr (count + 1) value addr = value.truncate 8 := by
      rw [store, store_other, set, if_pos rfl]
      have hback : (addr - (addr + 1)).toNat = 2 ^ 64 - 1 := by bv_omega
      omega
    rw [bytes, hfirst, store, ih (by omega), toNat_bytes]

def storeWords (mem : Mem) (addr : Word) : List Word → Mem
  | [] => mem
  | word :: rest => (mem.store addr 8 word).storeWords (addr + 8) rest

theorem storeWords_other (hahead : 8 * words.length ≤ (other - addr).toNat) :
    mem.storeWords addr words other = mem other := by
  induction words generalizing mem addr with
  | nil => rfl
  | cons word rest ih =>
    rw [List.length_cons] at hahead
    rw [storeWords, ih, store_other]
    · omega
    · bv_omega

theorem bytes_storeWords (hwords : 8 * words.length ≤ 2 ^ 64) (mem : Mem)
    (addr : Word) (hindex : index < words.length) :
    (mem.storeWords addr words).bytes (addr + BitVec.ofNat 64 (8 * index)) 8 =
      (words.get ⟨index, hindex⟩).toNat := by
  induction words generalizing mem addr index with
  | nil => exact absurd hindex (Nat.not_lt_zero _)
  | cons word rest ih =>
    rw [List.length_cons] at hwords hindex
    cases index with
    | zero =>
      have hkept : (mem.storeWords addr (word :: rest)).bytes addr 8 =
          (mem.store addr 8 word).bytes addr 8 := by
        apply bytes_congr
        intro byte hbyte
        rw [storeWords, storeWords_other]
        bv_omega
      rw [Nat.mul_zero, BitVec.add_zero, hkept, bytes_store (by decide)]
      exact Nat.mod_eq_of_lt word.isLt
    | succ index =>
      have hplace : addr + BitVec.ofNat 64 (8 * (index + 1)) =
          addr + 8 + BitVec.ofNat 64 (8 * index) := by
        rw [Nat.mul_succ, BitVec.ofNat_add,
          BitVec.add_comm (BitVec.ofNat 64 (8 * index)), ← BitVec.add_assoc]
        rfl
      rw [storeWords, hplace]
      exact ih (by omega) _ _ (Nat.lt_of_succ_lt_succ hindex)

theorem bytes_mod (mem : Mem) (addr : Word) (hnarrow : narrow ≤ count) :
    mem.bytes addr count % 256 ^ narrow = mem.bytes addr narrow := by
  induction narrow generalizing addr count with
  | zero => exact Nat.mod_one _
  | succ narrow ih =>
    obtain ⟨count, rfl⟩ := Nat.exists_eq_add_of_le hnarrow
    rw [Nat.add_right_comm, bytes, bytes, ← ih (addr + 1)
      (Nat.le_add_right narrow count), @Nat.pow_succ' 256, Nat.mod_mul]
    have hbyte := (mem addr).isLt
    have hdrop : ((mem addr).toNat + 256 * mem.bytes (addr + 1) (narrow + count)) / 256 =
        mem.bytes (addr + 1) (narrow + count) := by omega
    rw [hdrop]
    omega

theorem bytes_div (mem : Mem) (addr : Word) (hindex : index < count) :
    mem.bytes addr count / 256 ^ index % 256 =
      (mem (addr + BitVec.ofNat 64 index)).toNat := by
  have hbyte := (mem addr).isLt
  induction index generalizing addr count with
  | zero =>
    obtain ⟨count, rfl⟩ := Nat.exists_eq_add_one_of_ne_zero (Nat.ne_of_gt hindex)
    rw [bytes, Nat.pow_zero, Nat.div_one, BitVec.ofNat_eq_ofNat, BitVec.add_zero]
    omega
  | succ index ih =>
    obtain ⟨count, rfl⟩ := Nat.exists_eq_add_one_of_ne_zero (Nat.ne_zero_of_lt hindex)
    have hnext : addr + BitVec.ofNat 64 (index + 1) = addr + 1 + BitVec.ofNat 64 index := by
      rw [BitVec.ofNat_add, BitVec.add_comm (BitVec.ofNat 64 index), ← BitVec.add_assoc]
      rfl
    have hdrop : ((mem addr).toNat + 256 * mem.bytes (addr + 1) count) / 256 =
        mem.bytes (addr + 1) count := by omega
    rw [bytes, @Nat.pow_succ' 256, ← Nat.div_div_eq_div_mul, hdrop, hnext]
    exact ih (addr + 1) (Nat.lt_of_succ_lt_succ hindex) (mem (addr + 1)).isLt

end Mem

end PerfProf.Expr
