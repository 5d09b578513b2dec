import Mathlib.Algebra.Order.Ring.Int
import Mathlib.Data.List.Basic

namespace PerfProf.Data

/-! Circular buffers of `size` cells, of which one stays free. -/

universe u

structure Circ (size : Nat) (α : Type u) where
  cells : Nat → α
  head : Nat
  tail : Nat
  head_lt : head < size
  tail_lt : tail < size

def blit {α : Type u} (start : Nat) (items : List α) (cells : Nat → α) :
    Nat → α :=
  fun cell => if start ≤ cell then (items[cell - start]?).getD (cells cell)
    else cells cell

def slice {α : Type u} (start count : Nat) (cells : Nat → α) : List α :=
  (List.range count).map fun offset => cells (start + offset)

theorem mod_of_lt_twice {number : Nat} (less : number < 2 * size) :
    number % size = if number < size then number else number - size := by
  split_ifs with small
  · exact Nat.mod_eq_of_lt small
  · rw [Nat.mod_eq_sub_mod (by omega), Nat.mod_eq_of_lt (by omega)]

namespace Circ

variable {size : Nat} {α : Type u} (ring : Circ size α)

def count : Nat := (ring.head + size - ring.tail) % size

def space : Nat := (ring.tail + size - (ring.head + 1)) % size

def contents : List α :=
  (List.range ring.count).map fun offset => ring.cells ((ring.tail + offset) % size)

theorem count_eq : ring.count =
    if ring.tail ≤ ring.head then ring.head - ring.tail
    else ring.head + size - ring.tail := by
  have hhead := ring.head_lt
  have htail := ring.tail_lt
  rw [count, mod_of_lt_twice (by omega)]
  split <;> split <;> omega

theorem count_add_space : ring.count + ring.space + 1 = size := by
  have hhead := ring.head_lt
  have htail := ring.tail_lt
  rw [count_eq, space, mod_of_lt_twice (by omega)]
  split <;> split <;> omega

theorem offset_eq (hindex : index < ring.count + size) :
    ((ring.tail + index) % size + size - ring.head) % size =
      if index < ring.count then size - ring.count + index
      else index - ring.count := by
  have hhead := ring.head_lt
  have hspace := ring.count_add_space
  have hshift : ((ring.tail + index) % size + size - ring.head) % size =
      (index + size - ring.count) % size := by
    have hcount := ring.count_eq
    rw [Nat.add_sub_assoc (Nat.le_of_lt hhead), Nat.mod_add_mod]
    split at hcount
    · congr 1
      omega
    · have htail := ring.tail_lt
      rw [show ring.tail + index + (size - ring.head) =
        index + size - ring.count + size by omega, Nat.add_mod_right]
  rw [hshift, mod_of_lt_twice (by omega)]
  split
  · rw [if_pos (by omega)]
    omega
  · rw [if_neg (by omega)]
    omega

@[simp] theorem contents_length : ring.contents.length = ring.count := by
  rw [contents, List.length_map, List.length_range]

structure Pushed (items : List α) (before after : Circ size α) : Prop where
  fits : items.length ≤ before.space
  head : after.head = (before.head + items.length) % size
  tail : after.tail = before.tail
  cells : ∀ cell < size, after.cells cell =
    (items[(cell + size - before.head) % size]?).getD (before.cells cell)

namespace Pushed

variable {ring}

theorem count (pushed : Pushed items ring after) :
    after.count = ring.count + items.length := by
  have hspace := ring.count_add_space
  have hfits := pushed.fits
  have hhead := ring.head_lt
  have htail := ring.tail_lt
  have hcount := ring.count_eq
  rw [count_eq, pushed.head, pushed.tail, mod_of_lt_twice (by omega)]
  split at hcount <;> split <;> split <;> omega

theorem contents (pushed : Pushed items ring after) :
    after.contents = ring.contents ++ items := by
  have hspace := ring.count_add_space
  have hfits := pushed.fits
  apply List.ext_getElem?
  intro index
  unfold Circ.contents
  rw [pushed.count, pushed.tail, List.getElem?_map, List.getElem?_append,
    List.length_map, List.length_range, List.getElem?_map]
  by_cases hinside : index < ring.count + items.length
  · have hcell : (ring.tail + index) % size < size := Nat.mod_lt _ (by omega)
    rw [List.getElem?_range hinside, Option.map_some, pushed.cells _ hcell]
    rw [ring.offset_eq (by omega)]
    by_cases hold : index < ring.count
    · rw [if_pos hold, if_pos hold, List.getElem?_range hold, Option.map_some,
        List.getElem?_eq_none (by omega)]
      rfl
    · rw [if_neg hold, if_neg hold,
        List.getElem?_eq_getElem (show index - ring.count < items.length by omega)]
      rfl
  · rw [if_neg (by omega), List.getElem?_eq_none (by simp; omega), List.getElem?_eq_none (by omega)]
    rfl

end Pushed

theorem blit_wrapped {start cut : Nat} {items : List α} {cells : Nat → α}
    (inside : start < size) (fits : items.length ≤ size)
    (hcut : cut = size - start ∨
      items.length ≤ cut ∧ start + items.length ≤ size)
    {cell : Nat} (hcell : cell < size) :
    blit 0 (items.drop cut) (blit start (items.take cut) cells) cell =
      (items[(cell + size - start) % size]?).getD (cells cell) := by
  have hmod : (cell + size - start) % size =
      if cell < start then cell + size - start else cell - start := by
    rw [mod_of_lt_twice (by omega)]
    split <;> split <;> omega
  unfold blit
  rw [if_pos (Nat.zero_le _), Nat.sub_zero, List.getElem?_drop, hmod]
  by_cases hsecond : cut + cell < items.length
  · rw [List.getElem?_eq_getElem hsecond, Option.getD_some, if_pos (show cell < start by omega),
      show cell + size - start = cut + cell by omega,
      List.getElem?_eq_getElem hsecond, Option.getD_some]
  · rw [List.getElem?_eq_none (show items.length ≤ cut + cell by omega), Option.getD_none]
    by_cases hfirst : start ≤ cell
    · rw [if_pos hfirst, if_neg (show ¬ cell < start by omega), List.getElem?_take]
      split
      · rfl
      · rw [List.getElem?_eq_none (show items.length ≤ cell - start by omega)]
    · rw [if_neg hfirst, if_pos (show cell < start by omega), List.getElem?_eq_none (show
        items.length ≤ cell + size - start by omega), Option.getD_none]

def drop (amount : Nat) : Circ size α :=
  { ring with
    tail := (ring.tail + amount) % size
    tail_lt := Nat.mod_lt _ (Nat.lt_of_le_of_lt (Nat.zero_le _) ring.tail_lt) }

theorem drop_count (inside : amount ≤ ring.count) :
    (ring.drop amount).count = ring.count - amount := by
  have hspace := ring.count_add_space
  have htail := ring.tail_lt
  have hmoved : (ring.drop amount).tail = if ring.tail + amount < size then
      ring.tail + amount else ring.tail + amount - size :=
    mod_of_lt_twice (by omega)
  have hkept : (ring.drop amount).head = ring.head := rfl
  have hcount := ring.count_eq
  rw [(ring.drop amount).count_eq, hmoved, hkept]
  clear hmoved hkept
  have hhead := ring.head_lt
  split at hcount
  · rw [if_pos (show ring.tail + amount < size by omega), if_pos (by omega)]
    omega
  · by_cases hstraight : ring.tail + amount < size
    · rw [if_pos hstraight, if_neg (by omega)]
      omega
    · rw [if_neg hstraight, if_pos (by omega)]
      omega

theorem drop_contents (inside : amount ≤ ring.count) :
    (ring.drop amount).contents = ring.contents.drop amount := by
  have hcount := ring.drop_count inside
  apply List.ext_getElem?
  intro index
  unfold contents
  rw [hcount, List.getElem?_map, List.getElem?_drop, List.getElem?_map]
  by_cases hinside : index < ring.count - amount
  · rw [List.getElem?_range hinside,
      List.getElem?_range (show amount + index < ring.count by omega)]
    unfold drop
    simp only [Option.map_some]
    rw [Nat.mod_add_mod, Nat.add_assoc]
  · rw [List.getElem?_eq_none (by simp; omega), List.getElem?_eq_none (by simp; omega)]
    rfl

theorem slice_tail (inside : amount ≤ ring.count)
    (straight : ring.tail + amount ≤ size) :
    slice ring.tail amount ring.cells = ring.contents.take amount := by
  apply List.ext_getElem?
  intro index
  unfold slice contents
  rw [List.getElem?_take, List.getElem?_map, List.getElem?_map]
  split_ifs with hindex
  · rw [List.getElem?_range hindex, List.getElem?_range (show index < ring.count by omega)]
    simp only [Option.map_some]
    rw [Nat.mod_eq_of_lt (by omega)]
  · rw [List.getElem?_eq_none (by simp; omega)]
    rfl

end Circ

end PerfProf.Data
