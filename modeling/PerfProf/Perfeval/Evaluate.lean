import Mathlib.Data.Finset.Card
import PerfProf.Data.Transition

namespace PerfProf.Perfeval

open Data

abbrev U32 := BitVec 32

structure PerfevalNode where
  cpuTid : U32
  samples : Nat
  deriving DecidableEq, Repr

/-- The buckets of the hash table are one list: a search meets the nodes of a
key in the same order. -/
structure PerformanceEvaluation where
  hashmap : Option (List PerfevalNode)
  nrIns : Nat
  matchedEvents : Nat
  sampledEvents : Nat
  deriving DecidableEq, Repr

structure Config where
  interval : Nat
  interval_pos : 0 < interval
  samplingLimit : Nat

/-- The node of a key, with whether this is its first event. -/
def countNode (cpuTid : U32) :
    List PerfevalNode → Option (Bool × List PerfevalNode)
  | [] => none
  | node :: rest =>
    if node.cpuTid = cpuTid then
      some (decide (node.samples = 0), { node with samples := node.samples + 1 } :: rest)
    else
      match countNode cpuTid rest with
      | none => none
      | some (first, rest) => some (first, node :: rest)

def perfevalSample (cpuTid : U32) (perfeval : PerformanceEvaluation) :
    PerformanceEvaluation :=
  match perfeval.hashmap with
  | none => perfeval
  | some nodes =>
    let perfeval := { perfeval with sampledEvents := perfeval.sampledEvents + 1 }
    match countNode cpuTid nodes with
    | none => perfeval
    | some (first, nodes) =>
      { perfeval with
        hashmap := some nodes
        nrIns := if first then perfeval.nrIns + 1 else perfeval.nrIns
        matchedEvents := perfeval.matchedEvents + 1 }

structure Line where
  sampledInterval : Nat
  matchedInterval : Nat
  nrIns : Nat
  disable : Bool

/-- One turn of the loop of `perfeval_evaluate()`; none when it divides by zero.
-/
def perfevalEvaluate (config : Config) (perfeval : PerformanceEvaluation) :
    Option (PerformanceEvaluation × Option Line) :=
  match perfeval.hashmap with
  | none => some (perfeval, none)
  | some nodes =>
    if perfeval.sampledEvents = 0 then some (perfeval, none)
    else if config.samplingLimit ≠ 0 ∧ perfeval.nrIns = 0 then none
    else
      let matched := perfeval.matchedEvents * 1000 / config.interval
      some ({ hashmap := some (nodes.map fun node => { node with samples := 0 })
              nrIns := 0, matchedEvents := 0, sampledEvents := 0 },
        some { sampledInterval := perfeval.sampledEvents * 1000 / config.interval
               matchedInterval := matched
               nrIns := perfeval.nrIns
               disable := decide (config.samplingLimit ≠ 0 ∧
                 config.samplingLimit < matched / perfeval.nrIns) })

inductive Action where
  | sample (cpuTid : U32)
  | evaluate

/-- The table of the cpus or the table of the tasks; the two are independent. -/
def step (config : Config) :
    Action → PerformanceEvaluation → Option PerformanceEvaluation
  | .sample cpuTid, perfeval => some (perfevalSample cpuTid perfeval)
  | .evaluate, perfeval => (perfevalEvaluate config perfeval).map Prod.fst

def init (watched : List U32) : PerformanceEvaluation :=
  { hashmap := some (watched.map fun cpuTid => ⟨cpuTid, 0⟩)
    nrIns := 0, matchedEvents := 0, sampledEvents := 0 }

/-- The events since the last evaluation. -/
def since (actions : List Action) : List U32 :=
  actions.foldl (fun keys action =>
    match action with
    | .sample cpuTid => cpuTid :: keys
    | .evaluate => []) []

def nodesOf : List U32 → List U32 → List PerfevalNode
  | [], _ => []
  | cpuTid :: rest, keys =>
    ⟨cpuTid, keys.count cpuTid⟩ :: nodesOf rest (keys.filter fun key => key ≠ cpuTid)

theorem countNode_nodesOf (key : U32) (watched keys : List U32) :
    countNode key (nodesOf watched keys) =
      if key ∈ watched then
        some (decide (key ∉ keys), nodesOf watched (key :: keys))
      else none := by
  induction watched generalizing keys with
  | nil => rfl
  | cons cpuTid rest ih =>
    rw [nodesOf, countNode, ih]
    by_cases hsame : cpuTid = key
    · subst hsame
      simp [nodesOf, List.count_eq_zero]
    · by_cases hrest : key ∈ rest
      · simp [nodesOf, hsame, hrest, Ne.symm hsame]
      · simp [hsame, hrest, Ne.symm hsame]

theorem nodesOf_unwatched (hkey : key ∉ watched) (keys : List U32) :
    nodesOf watched (key :: keys) = nodesOf watched keys := by
  induction watched generalizing keys with
  | nil => rfl
  | cons cpuTid rest ih =>
    rw [List.mem_cons, not_or] at hkey
    obtain ⟨hne, hrest⟩ := hkey
    simp [nodesOf, hne, ih hrest]

theorem nodesOf_nil (watched : List U32) :
    nodesOf watched [] = watched.map fun cpuTid => ⟨cpuTid, 0⟩ := by
  induction watched with
  | nil => rfl
  | cons cpuTid rest ih => simp [nodesOf, ih]

theorem nodesOf_map (watched keys : List U32) :
    (nodesOf watched keys).map (fun node => { node with samples := 0 }) =
      nodesOf watched [] := by
  induction watched generalizing keys with
  | nil => rfl
  | cons cpuTid rest ih => simp [nodesOf, ih]

structure Counted (watched keys : List U32) (perfeval : PerformanceEvaluation) :
    Prop where
  table : perfeval.hashmap = some (nodesOf watched keys)
  sampled : perfeval.sampledEvents = keys.length
  instances : perfeval.nrIns = (watched.toFinset ∩ keys.toFinset).card

variable {watched keys : List U32} {perfeval : PerformanceEvaluation}
  {config : Config}

theorem Counted.sample (counted : Counted watched keys perfeval) (key : U32) :
    Counted watched (key :: keys) (perfevalSample key perfeval) := by
  obtain ⟨htable, hsampled, hinstances⟩ := counted
  rw [perfevalSample, htable]
  simp only [countNode_nodesOf]
  by_cases hwatched : key ∈ watched
  · simp only [if_pos hwatched]
    refine ⟨rfl, by simp [hsampled], ?_⟩
    by_cases hkey : key ∈ keys
    · simp [hkey, hinstances]
    · simp [hkey, hinstances, hwatched, Finset.inter_insert_of_mem]
  · simp only [if_neg hwatched]
    refine ⟨by rw [nodesOf_unwatched hwatched], by simp [hsampled], ?_⟩
    simp [hinstances, hwatched, Finset.inter_insert_of_notMem]

theorem counted_init (watched : List U32) : Counted watched [] (init watched) :=
  ⟨by rw [nodesOf_nil]; rfl, rfl, by simp [init]⟩

theorem Counted.evaluate (counted : Counted watched keys perfeval)
    (hevaluate : perfevalEvaluate config perfeval = some (last, line)) :
    Counted watched [] last := by
  obtain ⟨htable, hsampled, hinstances⟩ := counted
  simp only [perfevalEvaluate, htable] at hevaluate
  split_ifs at hevaluate with hzero
  · cases hevaluate
    obtain rfl : keys = [] := List.eq_nil_of_length_eq_zero (hsampled.symm.trans hzero)
    exact ⟨htable, hsampled, hinstances⟩
  · cases hevaluate
    exact ⟨by rw [nodesOf_map], rfl, by simp⟩

theorem Counted.evaluates_iff (counted : Counted watched keys perfeval) :
    (perfevalEvaluate config perfeval).isSome ↔
      (config.samplingLimit ≠ 0 → keys ≠ [] → ∃ key ∈ keys, key ∈ watched) := by
  obtain ⟨htable, hsampled, hinstances⟩ := counted
  have hnone : perfeval.nrIns = 0 ↔ ¬ ∃ key ∈ keys, key ∈ watched := by
    rw [hinstances, Finset.card_eq_zero, ← Finset.not_nonempty_iff_eq_empty]
    simp [Finset.Nonempty, and_comm]
  have hempty : perfeval.sampledEvents = 0 ↔ keys = [] := by simp [hsampled]
  simp only [perfevalEvaluate, htable, hnone, hempty]
  split_ifs with hkeys hdivides
  · simp [hkeys]
  · simp [hdivides, hkeys]
  · simp only [Option.isSome_some, true_iff]
    tauto

theorem run_counted
    (hrun : run (step config) actions (init watched) = some perfeval) :
    Counted watched (since actions) perfeval := by
  induction actions using List.reverseRecOn generalizing perfeval with
  | nil =>
    cases hrun
    exact counted_init watched
  | append_singleton past action ih =>
    obtain ⟨middle, hpast, hstep⟩ := run_snoc.mp hrun
    rw [since, List.foldl_append]
    cases action with
    | sample cpuTid =>
      cases hstep
      exact (ih hpast).sample cpuTid
    | evaluate =>
      obtain ⟨⟨last, line⟩, hevaluate, rfl⟩ := Option.map_eq_some_iff.mp hstep
      exact (ih hpast).evaluate hevaluate

/-- At every moment the number of instances is that of the instances with events
since the last evaluation, and an evaluation is defined exactly if one of these
events is of an instance that is watched, or there are none. -/
theorem evaluation_defined_iff (config : Config) (watched : List U32)
    (actions : List Action)
    (hrun : run (step config) actions (init watched) = some perfeval) :
    perfeval.nrIns = (watched.toFinset ∩ (since actions).toFinset).card ∧
    ((perfevalEvaluate config perfeval).isSome ↔
        (config.samplingLimit ≠ 0 →
          since actions ≠ [] →
          ∃ key ∈ since actions, key ∈ watched)) :=
  ⟨(run_counted hrun).instances, (run_counted hrun).evaluates_iff⟩

def limited : Config :=
  { interval := 1, interval_pos := Nat.one_pos, samplingLimit := 10 }

theorem one_sample_evaluated :
    (perfevalEvaluate limited (perfevalSample 3 (init [3, 4]))).isSome :=
  (evaluation_defined_iff limited [3, 4] [.sample 3] rfl).2.mpr fun _ _ => ⟨3, by decide, by decide⟩

theorem unwatched_sample_divides_by_zero :
    perfevalEvaluate limited (perfevalSample 5 (init [3, 4])) = none :=
  rfl

end PerfProf.Perfeval
