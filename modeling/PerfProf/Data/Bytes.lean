import Mathlib.Algebra.Order.Ring.Int
import Mathlib.Data.List.GetD
import Mathlib.Data.List.TakeWhile

namespace PerfProf.Data

abbrev Bytes := List UInt8

/-- A little-endian number of `width` bytes at `offset`. -/
def field (bytes : Bytes) (offset : Nat) : Nat → Nat
  | 0 => 0
  | width + 1 => (bytes.getD offset 0).toNat + 256 * field bytes (offset + 1) width

def stringAt (bytes : Bytes) (offset : Nat) : Bytes :=
  (bytes.drop offset).takeWhile (· ≠ 0)

theorem field_lt (bytes : Bytes) (offset width : Nat) :
    field bytes offset width < 256 ^ width := by
  induction width generalizing offset with
  | zero => exact Nat.one_pos
  | succ width ih =>
    have hrest := ih (offset + 1)
    have hbyte := (bytes.getD offset 0).toNat_lt
    rw [field, Nat.pow_succ]
    omega

theorem field_take (same : bytes.take count = other.take count)
    (inside : offset + width ≤ count) :
    field bytes offset width = field other offset width := by
  induction width generalizing offset with
  | zero => rfl
  | succ width ih =>
    have hbyte : bytes[offset]? = other[offset]? := by
      have hget := congrArg (·[offset]?) same
      simpa [List.getElem?_take_of_lt (show offset < count by omega)] using hget
    rw [field, field, ih (by omega), List.getD_eq_getElem?_getD, List.getD_eq_getElem?_getD, hbyte]

theorem field_append (inside : offset + width ≤ bytes.length) (rest : Bytes) :
    field (bytes ++ rest) offset width = field bytes offset width :=
  field_take (List.take_append_of_le_length (Nat.le_refl _)) inside

theorem stringAt_append (ends : 0 ∈ bytes.drop offset) (rest : Bytes) :
    stringAt (bytes ++ rest) offset = stringAt bytes offset := by
  have hinside : offset ≤ bytes.length := by
    by_contra outside
    rw [List.drop_eq_nil_of_le (by omega)] at ends
    cases ends
  unfold stringAt
  rw [List.drop_append_of_le_length hinside, List.takeWhile_append, if_neg]
  intro hall
  have hpart : (bytes.drop offset).takeWhile (· ≠ 0) <+: bytes.drop offset :=
    List.takeWhile_prefix _
  have hself := hpart.eq_of_length hall
  exact absurd (List.takeWhile_eq_self_iff.mp hself 0 ends) (by decide)

theorem field_drop (bytes : Bytes) (base offset width : Nat) :
    field (bytes.drop base) offset width =
      field bytes (base + offset) width := by
  induction width generalizing offset with
  | zero => rfl
  | succ width ih =>
    rw [field, field, ih, List.getD_eq_getElem?_getD,
      List.getD_eq_getElem?_getD, List.getElem?_drop, Nat.add_assoc]

theorem field_zeros (count offset width : Nat) :
    field (List.replicate count 0) offset width = 0 := by
  induction width generalizing offset with
  | zero => rfl
  | succ width ih =>
    have hbyte : (List.replicate count (0 : UInt8)).getD offset 0 = 0 := by
      rw [List.getD_eq_getElem?_getD, List.getElem?_replicate]
      split <;> rfl
    rw [field, ih, hbyte]
    rfl

def encode : Nat → Nat → Bytes
  | 0, _ => []
  | width + 1, value => UInt8.ofNat (value % 256) :: encode width (value / 256)

@[simp] theorem length_encode (width value : Nat) :
    (encode width value).length = width := by
  induction width generalizing value with
  | zero => rfl
  | succ width ih => simp [encode, ih]

theorem field_encode (bound : value < 256 ^ width) (first rest : Bytes) :
    field (first ++ (encode width value ++ rest)) first.length width =
      value := by
  induction width generalizing value first with
  | zero =>
    rw [Nat.pow_zero] at bound
    exact (Nat.lt_one_iff.mp bound).symm
  | succ width ih =>
    have hbyte : (UInt8.ofNat (value % 256)).toNat = value % 256 := by
      rw [UInt8.toNat_ofNat']
      omega
    have hbound : value / 256 < 256 ^ width := by
      rw [Nat.pow_succ] at bound
      omega
    have hrest := ih hbound (first ++ [UInt8.ofNat (value % 256)])
    rw [List.length_append, List.length_singleton, List.append_assoc,
      List.singleton_append] at hrest
    rw [encode, List.cons_append, field, hrest]
    simp only [List.getD_eq_getElem?_getD, Nat.le_refl, List.getElem?_append_right, Nat.sub_self,
      List.getElem?_cons_zero, Option.getD_some, hbyte]
    omega

def piece (heap : Bytes) (offset length : Nat) : Bytes :=
  (heap.drop offset).take length

def load (heap : Bytes) (offset width : Nat) : Option Nat :=
  if offset + width ≤ heap.length then some (field heap offset width) else none

/-- The memory after `bytes` were copied to `offset`. -/
def overwrite (heap : Bytes) (offset : Nat) (bytes : Bytes) : Bytes :=
  heap.take offset ++ (bytes ++ heap.drop (offset + bytes.length))

def store (heap : Bytes) (offset : Nat) (bytes : Bytes) : Option Bytes :=
  if offset + bytes.length ≤ heap.length then
    some (overwrite heap offset bytes)
  else none

section Heap

variable {heap stored bytes : Bytes} {offset : Nat}

theorem length_overwrite (inside : offset + bytes.length ≤ heap.length) :
    (overwrite heap offset bytes).length = heap.length := by
  simp only [overwrite, List.length_append, List.length_take, List.length_drop]
  omega

theorem take_overwrite (inside : offset ≤ heap.length) :
    (overwrite heap offset bytes).take (offset + bytes.length) =
      heap.take offset ++ bytes := by
  have hlength : offset + bytes.length = (heap.take offset ++ bytes).length := by
    rw [List.length_append, List.length_take]
    omega
  rw [overwrite, ← List.append_assoc, hlength, List.take_left]

section

variable (hstore : store heap offset bytes = some stored)

include hstore

theorem store_some : offset + bytes.length ≤ heap.length ∧
    stored = overwrite heap offset bytes := by
  unfold store at hstore
  split at hstore
  · cases hstore
    exact ⟨by assumption, rfl⟩
  · cases hstore

theorem length_store : stored.length = heap.length := by
  obtain ⟨hinside, rfl⟩ := store_some hstore
  exact length_overwrite hinside

theorem piece_store : piece stored offset bytes.length = bytes := by
  obtain ⟨hinside, rfl⟩ := store_some hstore
  have hfront : (heap.take offset).length = offset := by
    rw [List.length_take]
    omega
  rw [overwrite, piece, List.drop_append_of_le_length (by omega),
    List.drop_of_length_le (by omega), List.nil_append, List.take_left]

theorem piece_store_apart
    (apart : other + length ≤ offset ∨ offset + bytes.length ≤ other) :
    piece stored other length = piece heap other length := by
  obtain ⟨hinside, rfl⟩ := store_some hstore
  apply List.ext_getElem?
  intro index
  simp only [overwrite, piece, List.getElem?_take, List.getElem?_drop]
  split
  · rcases apart with before | behind
    · rw [List.getElem?_append_left (by rw [List.length_take]; omega),
        List.getElem?_take_of_lt (by omega)]
    · rw [List.getElem?_append_right (by rw [List.length_take]; omega), List.getElem?_append_right
        (by rw [List.length_take]; omega), List.getElem?_drop, List.length_take]
      congr 1
      omega
  · rfl

end

theorem load_piece (inside : base + length ≤ heap.length)
    (bound : offset + width ≤ length) :
    load heap (base + offset) width =
      some (field (piece heap base length) offset width) := by
  have hsame : (heap.drop base).take length = ((heap.drop base).take length).take length := by
    rw [List.take_take, Nat.min_self]
  rw [load, if_pos (by omega), piece, ← field_drop]
  exact congrArg some (field_take hsame bound)

end Heap

end PerfProf.Data
