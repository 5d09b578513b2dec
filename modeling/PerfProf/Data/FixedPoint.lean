import Mathlib.Algebra.Order.Ring.Int

namespace PerfProf.Data

def ceilDiv (value unit : Nat) : Nat := (value + unit - 1) / unit

theorem le_ceilDiv_mul (hunit : 0 < unit) (value : Nat) :
    value ≤ ceilDiv value unit * unit := by
  have hless := Nat.lt_div_mul_add hunit (a := value + unit - 1)
  unfold ceilDiv
  omega

theorem add_div_le_add_ceilDiv (hunit : 0 < unit) (first second : Nat) :
    (first + second) / unit ≤ first / unit + ceilDiv second unit := by
  have hfirst := Nat.lt_div_mul_add hunit (a := first)
  have hsecond := le_ceilDiv_mul hunit second
  have hless : first + second < (first / unit + ceilDiv second unit + 1) * unit := by
    rw [Nat.add_mul, Nat.add_mul]
    omega
  exact Nat.le_of_lt_succ (Nat.div_lt_of_lt_mul (by rwa [Nat.mul_comm unit]))

theorem div_mul_add_mod_mul_div (hmult : 0 < mult) (value scale : Nat) :
    value / mult * scale + value % mult * scale / mult =
      value * scale / mult := by
  have hsplit : value * scale = value % mult * scale + mult * (value / mult * scale) := by
    calc value * scale
        = (value % mult + mult * (value / mult)) * scale := by rw [Nat.mod_add_div]
      _ = value % mult * scale + mult * (value / mult * scale) := by rw [Nat.add_mul, Nat.mul_assoc]
  rw [hsplit, Nat.add_mul_div_left _ _ hmult, Nat.add_comm]

theorem mul_div_mul_div_le (value mult scale : Nat) :
    value * scale / mult * mult / scale ≤ value :=
  Nat.div_le_of_le_mul (by
    rw [Nat.mul_comm scale]
    exact Nat.div_mul_le_self (value * scale) mult)

theorem le_mul_div_mul_div (hmult : 0 < mult) (hscale : 0 < scale)
    (value : Nat) :
    value ≤ value * scale / mult * mult / scale + ceilDiv mult scale := by
  have hfloor := Nat.lt_div_mul_add hmult (a := value * scale)
  have hback := Nat.lt_div_mul_add hscale (a := value * scale / mult * mult)
  have hceil := le_ceilDiv_mul hscale mult
  generalize value * scale / mult * mult / scale = back at hback ⊢
  generalize value * scale / mult * mult = floor at hfloor hback
  have hless : value * scale < (back + ceilDiv mult scale + 1) * scale := by
    rw [Nat.add_mul, Nat.add_mul]
    omega
  exact Nat.le_of_lt_succ (Nat.lt_of_mul_lt_mul_right hless)

theorem sub_mul_div_bounds (hmult : 0 < mult) (hscale : 0 < scale) (value : Nat)
    (hlost : lost ≤ bound) (hbound : bound ≤ value * scale / mult) :
    (value * scale / mult - lost) * mult / scale ≤ value ∧
    value ≤
      (value * scale / mult - lost) * mult / scale +
        (ceilDiv (bound * mult) scale + ceilDiv mult scale) := by
  have hbelow := mul_div_mul_div_le value mult scale
  have habove := le_mul_div_mul_div hmult hscale value
  generalize value * scale / mult = scaled at *
  have hsplit : (scaled - lost) * mult + lost * mult = scaled * mult := by
    rw [← Nat.add_mul, Nat.sub_add_cancel (Nat.le_trans hlost hbound)]
  have hmono : (scaled - lost) * mult / scale ≤ scaled * mult / scale :=
    Nat.div_le_div_right (Nat.mul_le_mul_right mult (Nat.sub_le scaled lost))
  have hpart := add_div_le_add_ceilDiv hscale ((scaled - lost) * mult) (lost * mult)
  have hceil : ceilDiv (lost * mult) scale ≤ ceilDiv (bound * mult) scale :=
    Nat.div_le_div_right (by
      have := Nat.mul_le_mul_right mult hlost
      omega)
  rw [hsplit] at hpart
  omega

end PerfProf.Data
