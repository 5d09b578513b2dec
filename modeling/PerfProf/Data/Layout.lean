import Mathlib.Algebra.BigOperators.Group.List.Basic
import Mathlib.Algebra.Order.Ring.Int
import Mathlib.Data.List.Induction
import Mathlib.Data.List.Nodup

namespace PerfProf.Data

/-! Parts of different widths that lie one behind the other. -/

universe u v

variable {κ : Type u}

def total (width : κ → Nat) (parts : List κ) : Nat := (parts.map width).sum

def advance (step : κ → Nat → Nat) (parts : List κ) (place : Nat) : Nat :=
  parts.foldl (fun place part => place + step part place) place

section Places

@[simp] theorem total_append (front back : List κ) :
    total width (front ++ back) = total width front + total width back := by
  simp [total]

@[simp] theorem total_singleton (part : κ) :
    total width [part] = width part := by simp [total]

@[simp] theorem advance_append (front back : List κ) (place : Nat) :
    advance step (front ++ back) place =
      advance step back (advance step front place) :=
  List.foldl_append

@[simp] theorem advance_singleton (part : κ) (place : Nat) :
    advance step [part] place = place + step part place := rfl

theorem le_advance (parts : List κ) (place : Nat) :
    place ≤ advance step parts place := by
  induction parts generalizing place with
  | nil => exact Nat.le_refl _
  | cons part rest ih => exact Nat.le_trans (Nat.le_add_right _ _) (ih _)

theorem advance_eq_iff {taken : κ → Nat}
    (known : ∀ front part back, parts = front ++ part :: back →
      step part (total width front) = taken part) :
    (∀ front part back, parts = front ++ part :: back →
      advance step front 0 = total width front) ↔
      ∀ front part next back, parts = front ++ part :: next :: back →
        taken part = width part := by
  constructor
  · intro places front part next back hparts
    have hpart := places front part (next :: back) hparts
    have hnext := places (front ++ [part]) next back (by simp [hparts])
    rw [advance_append, advance_singleton, hpart, total_append,
      total_singleton, known front part (next :: back) hparts] at hnext
    omega
  · intro widths front
    induction front using List.reverseRecOn with
    | nil => exact fun _ _ _ => rfl
    | append_singleton front part ih =>
      intro next back hparts
      have hsplit : parts = front ++ part :: next :: back := by simp [hparts]
      rw [advance_append, advance_singleton, total_append, total_singleton, ih part (next :: back)
        hsplit, known front part (next :: back) hsplit, widths front part next back hsplit]

end Places

section Tables

variable {keys : List κ} {ε : Type v} {key : ε → κ} {table : List ε} {entry : ε}

theorem exists_next {key : κ} (nodup : keys.Nodup) (hkey : key ∈ keys) :
    keys.getLast? ≠ some key ↔
      ∃ front next back, keys = front ++ key :: next :: back := by
  obtain ⟨front, behind, rfl⟩ := List.append_of_mem hkey
  constructor
  · intro hlast
    cases behind with
    | nil => simp at hlast
    | cons next back => exact ⟨front, next, back, rfl⟩
  · rintro ⟨first, next, back, hsplit⟩ hlast
    rw [hsplit] at hlast nodup
    have hbehind : key ∈ next :: back := by
      apply List.mem_of_getLast?
      rw [← hlast]
      simp [List.getLast?_append, List.getLast?_cons]
    exact (List.nodup_cons.mp nodup.of_append_right).1 hbehind

theorem filter_mem_of_sublist [DecidableEq κ] (nodup : keys.Nodup)
    (sub : part.Sublist keys) :
    keys.filter (fun key => decide (key ∈ part)) = part := by
  induction sub with
  | slnil => rfl
  | cons key sub ih =>
    obtain ⟨hkey, hrest⟩ := List.nodup_cons.mp nodup
    have hnot : key ∉ _ := fun hmem => hkey (sub.subset hmem)
    rw [List.filter_cons_of_neg (by simpa using hnot), ih hrest]
  | @cons_cons part keys key sub ih =>
    obtain ⟨hkey, hrest⟩ := List.nodup_cons.mp nodup
    rw [List.filter_cons_of_pos (by simp), List.cons.injEq]
    refine ⟨rfl, (List.filter_congr ?_).trans (ih hrest)⟩
    intro other hother
    have hne : other ≠ key := fun heq => hkey (heq ▸ hother)
    simp [hne]

theorem find?_of_nodup [DecidableEq κ] (nodup : (table.map key).Nodup)
    (hentry : entry ∈ table) :
    table.find? (fun other => decide (key other = key entry)) = some entry := by
  induction table with
  | nil => cases hentry
  | cons first rest ih =>
    obtain ⟨hfirst, hrest⟩ := List.nodup_cons.mp nodup
    rcases List.mem_cons.mp hentry with rfl | hmem
    · exact List.find?_cons_of_pos (by simp)
    · have hne : key first ≠ key entry := fun heq => hfirst (heq ▸ List.mem_map_of_mem hmem)
      rw [List.find?_cons_of_neg (by simpa using hne)]
      exact ih hrest hmem

theorem takeWhile_of_nodup [DecidableEq κ] (nodup : (table.map key).Nodup)
    (hsplit : table = front ++ entry :: back) :
    table.takeWhile (fun other => decide (key other ≠ key entry)) = front := by
  have hfront : ∀ other ∈ front, decide (key other ≠ key entry) = true := by
    intro other hother
    rw [hsplit, List.map_append, List.map_cons] at nodup
    apply decide_eq_true
    intro hkey
    exact List.disjoint_of_nodup_append nodup (List.mem_map_of_mem hother)
      (hkey ▸ List.mem_cons_self)
  rw [hsplit, List.takeWhile_append_of_pos hfront,
    List.takeWhile_cons_of_neg (by simp), List.append_nil]

end Tables

end PerfProf.Data
