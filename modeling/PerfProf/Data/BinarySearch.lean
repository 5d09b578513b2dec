import Mathlib.Algebra.Order.Ring.Int

namespace PerfProf.Data

def lastTrue (below : Nat → Bool) (start finish : Nat) : Nat :=
  if start < finish then
    let mid := start + (finish - start + 1) / 2
    if below mid then lastTrue below mid finish
    else lastTrue below start (mid - 1)
  else start
termination_by finish - start

section Search

variable {below : Nat → Bool} {start finish : Nat}

theorem below_lastTrue (hbelow : below start = true) :
    below (lastTrue below start finish) = true := by
  fun_induction lastTrue below start finish with
  | case1 start finish hlt mid hmid ih => exact ih hmid
  | case2 start finish hlt mid habove ih => exact ih hbelow
  | case3 => exact hbelow

theorem lastTrue_above
    (initial : ∀ low high,
      low ≤ high → high ≤ finish → below high = true → below low = true)
    (hindex : lastTrue below start finish < index) (hfinish : index ≤ finish) :
    below index = false := by
  fun_induction lastTrue below start finish with
  | case1 start finish hlt mid hmid ih => exact ih initial hindex hfinish
  | case2 start finish hlt mid habove ih =>
    by_cases hinside : index ≤ mid - 1
    · refine ih ?_ hindex hinside
      intro low high hle hhigh
      exact initial low high hle (by omega)
    · rw [Bool.eq_false_iff]
      intro hbelow
      exact habove (initial mid index (by omega) hfinish hbelow)
  | case3 => omega

end Search

section Locate

variable {κ : Type*} [LinearOrder κ]

def locate (item : Nat → κ) (wanted : κ) (low high : Nat) : Option Nat :=
  if low < high then
    let mid := (low + high) / 2
    if item mid = wanted then some mid
    else if wanted < item mid then locate item wanted low mid
    else locate item wanted (mid + 1) high
  else none
termination_by high - low

theorem locate_isSome_iff {item : Nat → κ}
    (sorted : ∀ first second,
      first < second → second < high → item first < item second) :
    (locate item wanted low high).isSome = true ↔
      ∃ index, low ≤ index ∧ index < high ∧ item index = wanted := by
  fun_induction locate item wanted low high with
  | case1 low high hlt mid hmid => exact ⟨fun _ => ⟨mid, by omega, by omega, hmid⟩, fun _ => rfl⟩
  | case2 low high hlt mid hmid hless ih =>
    rw [ih fun first second hfirst hsecond => sorted first second hfirst (by omega)]
    constructor
    · rintro ⟨index, hlow, hhigh, hindex⟩
      exact ⟨index, hlow, by omega, hindex⟩
    · rintro ⟨index, hlow, hhigh, rfl⟩
      refine ⟨index, hlow, ?_, rfl⟩
      by_contra habove
      rcases Nat.lt_or_eq_of_le (Nat.le_of_not_lt habove) with hmore | rfl
      · exact (sorted mid index hmore hhigh).not_gt hless
      · exact hmid rfl
  | case3 low high hlt mid hmid hmore ih =>
    rw [ih sorted]
    constructor
    · rintro ⟨index, hlow, hhigh, hindex⟩
      exact ⟨index, by omega, hhigh, hindex⟩
    · rintro ⟨index, hlow, hhigh, rfl⟩
      refine ⟨index, ?_, hhigh, rfl⟩
      by_contra hbelow
      rcases Nat.lt_or_eq_of_le (Nat.le_of_not_lt hbelow) with hless | heq
      · exact hmore (sorted index mid (by omega) (by omega))
      · exact hmid (by rw [show mid = index by omega])
  | case4 low high hlt =>
    simp only [Option.isSome_none, Bool.false_eq_true, false_iff]
    rintro ⟨index, hlow, hhigh, _⟩
    omega

end Locate

end PerfProf.Data
