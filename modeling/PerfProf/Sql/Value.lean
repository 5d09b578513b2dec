import Mathlib.Algebra.Order.Ring.Int
import Mathlib.Data.List.Lex
import Mathlib.Data.Sum.Order

namespace PerfProf.Sql

/-! Column values.  `perf_tp_field` returns an `int64_t` that is a number or a
pointer to a string, as the column's type says. -/

inductive Value where
  | int (value : Int)
  | text (bytes : List Nat)
  deriving DecidableEq, Repr

namespace Value

/-- Numbers by value, strings by their bytes.  A column holds only one kind, so
how numbers compare with strings does not matter. -/
def key : Value → Int ⊕ₗ List Nat
  | int value => toLex (.inl value)
  | text bytes => toLex (.inr bytes)

theorem key_injective : Function.Injective key := by
  intro left right same
  cases left <;> cases right <;> simp_all [key]

instance : LinearOrder Value := LinearOrder.lift' key key_injective

theorem int_lt_int (left right : Int) : int left < int right ↔ left < right :=
  Sum.Lex.inl_lt_inl_iff

theorem text_lt_text (left right : List Nat) :
    text left < text right ↔ left < right :=
  Sum.Lex.inr_lt_inr_iff

end Value

/-- `strcmp` on strings without their terminating zero. -/
def strcmp : List Nat → List Nat → Ordering
  | [], [] => .eq
  | [], _ :: _ => .lt
  | _ :: _, [] => .gt
  | left :: lefts, right :: rights =>
    if left = right then strcmp lefts rights
    else if left < right then .lt
    else .gt

theorem strcmp_compares (left right : List Nat) :
    (strcmp left right).Compares (Value.text left) (Value.text right) := by
  induction left generalizing right with
  | nil =>
    cases right with
    | nil => rfl
    | cons head tail => exact (Value.text_lt_text _ _).mpr (List.nil_lt_cons head tail)
  | cons first rest ih =>
    cases right with
    | nil => exact (Value.text_lt_text _ _).mpr (List.nil_lt_cons first rest)
    | cons head tail =>
      rw [strcmp]
      split
      · rename_i same
        subst same
        have htail := ih tail
        cases hcmp : strcmp rest tail with
        | lt =>
          rw [hcmp] at htail
          apply (Value.text_lt_text _ _).mpr
          exact List.cons_lt_cons_self.mpr ((Value.text_lt_text _ _).mp htail)
        | eq =>
          rw [hcmp] at htail
          cases htail
          rfl
        | gt =>
          rw [hcmp] at htail
          apply (Value.text_lt_text _ _).mpr
          exact List.cons_lt_cons_self.mpr ((Value.text_lt_text _ _).mp htail)
      · rename_i different
        split
        · rename_i less
          apply (Value.text_lt_text _ _).mpr
          exact List.cons_lt_cons_iff.mpr (.inl less)
        · rename_i notLess
          apply (Value.text_lt_text _ _).mpr
          exact List.cons_lt_cons_iff.mpr (.inl (by omega))

end PerfProf.Sql
