import Mathlib.Data.List.GetD
import PerfProf.Data.BinarySearch

namespace PerfProf.Oncpu

open Data

structure CpuMap where
  map : List Int
  sorted : map.Pairwise (· < ·)
  nonneg : ∀ cpu ∈ map, 0 ≤ cpu
  filled : map ≠ []

namespace CpuMap

def idx (cpus : CpuMap) (cpu : Int) : Int :=
  match locate (fun i => cpus.map.getD i 0) cpu 0 cpus.map.length with
  | some i => i
  | none => -1

theorem idx_nonneg_iff (cpus : CpuMap) (cpu : Int) :
    0 ≤ cpus.idx cpu ↔ cpu ∈ cpus.map := by
  have hsorted : ∀ first second, first < second → second < cpus.map.length →
      cpus.map.getD first 0 < cpus.map.getD second 0 := by
    intro first second hless hbound
    rw [List.getD_eq_getElem _ _ (by omega), List.getD_eq_getElem _ _ hbound]
    exact List.pairwise_iff_getElem.mp cpus.sorted first second _ _ hless
  have hlocate := @locate_isSome_iff _ _ _ cpu 0 _ hsorted
  have hidx : 0 ≤ cpus.idx cpu ↔ (locate (fun i => cpus.map.getD i 0) cpu 0
      cpus.map.length).isSome = true := by
    rw [idx]
    cases locate (fun i => cpus.map.getD i 0) cpu 0 cpus.map.length with
    | none => simp
    | some i => simp
  rw [hidx, hlocate, List.mem_iff_getElem]
  constructor
  · rintro ⟨index, _, hbound, hindex⟩
    rw [List.getD_eq_getElem _ _ hbound] at hindex
    exact ⟨index, hbound, hindex⟩
  · rintro ⟨index, hbound, hindex⟩
    refine ⟨index, Nat.zero_le _, hbound, ?_⟩
    rw [List.getD_eq_getElem _ _ hbound]
    exact hindex

end CpuMap

inductive Clause where
  | eq (value : Int)
  | between (start finish : Int)
  deriving DecidableEq, Repr

def Clause.holds (value : Int) : Clause → Bool
  | .eq wanted => decide (value = wanted)
  | .between start finish => decide (start ≤ value) && decide (value ≤ finish)

abbrev Clauses := List Clause

def Clauses.holds (clauses : Clauses) (value : Int) : Bool :=
  clauses.any (Clause.holds value)

def rangeFilter (filter : Clauses) (start finish : Int) : Clauses :=
  if start < 0 ∨ finish < 0 then filter
  else if start = finish then filter ++ [.eq start]
  else filter ++ [.between start finish]

/-- One round of the loop of `cpu_filter()`: the filter so far and the range
that is not in it yet. -/
def rangeOn (state : Clauses × Int × Int) (cpu : Int) : Clauses × Int × Int :=
  if 0 ≤ cpu then
    if state.2.2 + 1 ≠ cpu then
      (rangeFilter state.1 state.2.1 state.2.2, cpu, cpu)
    else (state.1, state.2.1, cpu)
  else state

def cpuFilter (cpus : CpuMap) : Clauses :=
  let last := cpus.map.foldl rangeOn ([], -2, -2)
  rangeFilter last.1 last.2.1 last.2.2

section Filter

def Open (state : Clauses × Int × Int) : Prop :=
  state.2.1 ≤ state.2.2 ∧ (0 ≤ state.2.1 ∨ state.2.2 = -2)

def Covers (state : Clauses × Int × Int) (value : Int) : Prop :=
  state.1.holds value = true ∨ 0 ≤ state.2.1 ∧ state.2.1 ≤ value ∧ value ≤ state.2.2

theorem rangeFilter_holds (hopen : Open state) (value : Int) :
    (rangeFilter state.1 state.2.1 state.2.2).holds value = true ↔
      Covers state value := by
  obtain ⟨filter, start, finish⟩ := state
  obtain ⟨hordered, hreal⟩ := hopen
  dsimp only at hordered hreal
  rw [rangeFilter, Covers]
  dsimp only
  split
  · rename_i hnone
    exact ⟨.inl, fun hcovers => hcovers.resolve_right (by omega)⟩
  split
  · rename_i hsome hsingle
    subst hsingle
    rw [Clauses.holds, List.any_append, Bool.or_eq_true]
    refine or_congr Iff.rfl ?_
    simp only [List.any_cons, List.any_nil, Bool.or_false, Clause.holds, decide_eq_true_eq]
    omega
  · rename_i hsome hrange
    rw [Clauses.holds, List.any_append, Bool.or_eq_true]
    refine or_congr Iff.rfl ?_
    simp only [List.any_cons, List.any_nil, Bool.or_false, Clause.holds,
      Bool.and_eq_true, decide_eq_true_eq]
    omega

theorem rangeOn_covers (hopen : Open state) (hcpu : 0 ≤ cpu) :
    Open (rangeOn state cpu) ∧
    ∀ value, Covers (rangeOn state cpu) value ↔
        Covers state value ∨ value = cpu := by
  rw [rangeOn, if_pos hcpu]
  split_ifs with hnext
  · refine ⟨⟨le_rfl, .inl hcpu⟩, fun value => ?_⟩
    rw [Covers, rangeFilter_holds hopen]
    refine or_congr Iff.rfl ?_
    dsimp only
    omega
  · obtain ⟨hordered, hreal⟩ := hopen
    refine ⟨⟨by dsimp only; omega, .inl (by dsimp only; omega)⟩, fun value => ?_⟩
    rw [Covers, Covers, or_assoc]
    refine or_congr Iff.rfl ?_
    dsimp only
    omega

theorem foldl_rangeOn_covers (hopen : Open state) {cpus : List Int}
    (hcpus : ∀ cpu ∈ cpus, 0 ≤ cpu) :
    Open (cpus.foldl rangeOn state) ∧
    ∀ value, Covers (cpus.foldl rangeOn state) value ↔
        Covers state value ∨ value ∈ cpus := by
  induction cpus generalizing state with
  | nil => simp [hopen]
  | cons cpu rest ih =>
    obtain ⟨hnext, hcovers⟩ := rangeOn_covers hopen (hcpus cpu List.mem_cons_self)
    obtain ⟨hlast, hrest⟩ := ih hnext fun other hother =>
      hcpus other (List.mem_cons_of_mem _ hother)
    refine ⟨hlast, fun value => ?_⟩
    rw [List.foldl_cons, hrest, hcovers, List.mem_cons, or_assoc]

theorem cpuFilter_holds (cpus : CpuMap) (value : Int) :
    (cpuFilter cpus).holds value = true ↔ value ∈ cpus.map := by
  have hstart : Open (([], -2, -2) : Clauses × Int × Int) := ⟨le_rfl, .inr rfl⟩
  obtain ⟨hopen, hcovers⟩ := foldl_rangeOn_covers hstart cpus.nonneg
  rw [cpuFilter, rangeFilter_holds hopen, hcovers]
  simp [Covers, Clauses.holds]

end Filter

end PerfProf.Oncpu
