import Mathlib.Algebra.BigOperators.Group.List.Basic
import Mathlib.Algebra.Order.Ring.Int

namespace PerfProf.Data

universe u v

variable {α : Type u} {M : Type v} [AddCommMonoid M]

def tally (weight : α → M) (select : α → Bool) (items : List α) : M :=
  ((items.filter select).map weight).sum

variable (weight : α → M)

@[simp] theorem tally_nil (select : α → Bool) : tally weight select [] = 0 :=
  rfl

@[simp] theorem tally_append (select : α → Bool) (first second : List α) :
    tally weight select (first ++ second) =
      tally weight select first + tally weight select second := by
  simp [tally]

theorem tally_cons_of_select (hitem : select item = true) :
    tally weight select (item :: items) =
      weight item + tally weight select items := by
  simp [tally, hitem]

theorem tally_cons_of_not (hitem : select item = false) :
    tally weight select (item :: items) = tally weight select items := by
  simp [tally, hitem]

theorem tally_congr {first second : α → Bool}
    (hsame : ∀ item ∈ items, first item = second item) :
    tally weight first items = tally weight second items := by
  rw [tally, tally, List.filter_congr hsame]

theorem tally_eq_zero (hnone : ∀ item ∈ items, select item = false) :
    tally weight select items = 0 := by
  rw [tally, List.filter_eq_nil_iff.mpr (by simpa using hnone)]
  rfl

theorem tally_split (select inside : α → Bool) (items : List α) :
    tally weight select items =
      tally weight (fun item => select item && inside item) items +
        tally weight (fun item => select item && !inside item) items := by
  induction items with
  | nil => simp
  | cons item rest ih =>
    cases hselect : select item with
    | false =>
      rw [tally_cons_of_not weight hselect, tally_cons_of_not weight (by simp [hselect]),
        tally_cons_of_not weight (by simp [hselect])]
      exact ih
    | true =>
      rw [tally_cons_of_select weight hselect, ih]
      cases hinside : inside item with
      | false =>
        rw [tally_cons_of_not weight (by simp [hinside]),
          tally_cons_of_select weight (by simp [hselect, hinside])]
        exact add_left_comm _ _ _
      | true =>
        rw [tally_cons_of_select weight (by simp [hselect, hinside]),
          tally_cons_of_not weight (by simp [hinside])]
        exact (add_assoc _ _ _).symm

theorem tally_window (place : α → Nat) (select : α → Bool) (base width : Nat)
    (items : List α) :
    ((List.range width).map fun offset => tally weight
      (fun item => select item && decide (place item = base + offset))
      items).sum =
      tally weight (fun item => select item &&
          decide (base ≤ place item ∧ place item < base + width)) items := by
  induction width with
  | zero =>
    rw [List.range_zero, List.map_nil, List.sum_nil]
    refine (tally_eq_zero weight fun item _ => ?_).symm
    simp
  | succ width ih =>
    rw [List.range_succ, List.map_append, List.sum_append, ih,
      List.map_singleton, List.sum_singleton]
    rw [tally_split weight (fun item => select item && decide (base ≤ place item ∧ place item < base
        + (width + 1))) (fun item => decide (place item < base + width))]
    congr 1
    · refine tally_congr weight fun item _ => ?_
      rw [Bool.and_assoc, ← Bool.decide_and]
      congr 2
      exact propext (by omega)
    · refine tally_congr weight fun item _ => ?_
      rw [Bool.and_assoc, ← decide_not, ← Bool.decide_and]
      congr 2
      exact propext (by omega)

end PerfProf.Data
