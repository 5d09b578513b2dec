import Mathlib.Algebra.Order.Ring.Int
import Mathlib.Data.List.Induction

namespace PerfProf.Data

/-! Labelled transition systems given by a partial step function, their finite
runs, and the induction rule for invariants of every run. -/

universe u v

variable {α : Type u} {σ : Type v}

def run (step : α → σ → Option σ) : List α → σ → Option σ
  | [], state => some state
  | action :: rest, state =>
    match step action state with
    | none => none
    | some next => run step rest next

@[simp] theorem run_nil (step : α → σ → Option σ) (state : σ) :
    run step [] state = some state := rfl

variable {step : α → σ → Option σ} {state last : σ} {actions : List α}

theorem run_cons :
    run step (action :: rest) state = some last ↔
      ∃ next, step action state = some next ∧
        run step rest next = some last := by
  cases hstep : step action state with
  | none => simp [run, hstep]
  | some next => simp [run, hstep]

theorem run_append :
    run step (first ++ second) state = some last ↔
      ∃ middle, run step first state = some middle ∧
        run step second middle = some last := by
  induction first generalizing state with
  | nil => simp
  | cons action rest ih =>
    rw [List.cons_append, run_cons]
    constructor
    · rintro ⟨next, hstep, hrest⟩
      obtain ⟨middle, hfirst, hsecond⟩ := ih.mp hrest
      exact ⟨middle, run_cons.mpr ⟨next, hstep, hfirst⟩, hsecond⟩
    · rintro ⟨middle, hfirst, hsecond⟩
      obtain ⟨next, hstep, hrest⟩ := run_cons.mp hfirst
      exact ⟨next, hstep, ih.mpr ⟨middle, hrest, hsecond⟩⟩

theorem run_preserves (Inv : σ → Prop)
    (preserved : ∀ action state next,
      Inv state → step action state = some next → Inv next)
    (holds : Inv state) (hrun : run step actions state = some last) :
    Inv last := by
  induction actions generalizing state with
  | nil =>
    cases hrun
    exact holds
  | cons action rest ih =>
    obtain ⟨next, hstep, hrest⟩ := run_cons.mp hrun
    exact ih (preserved action state next holds hstep) hrest

theorem run_snoc :
    run step (past ++ [action]) state = some last ↔
      ∃ middle, run step past state = some middle ∧
        step action middle = some last := by
  rw [run_append]
  refine exists_congr fun middle => and_congr_right fun _ => ?_
  rw [run_cons]
  simp

theorem run_invariant (Inv : σ → Prop) (holds : Inv state)
    (kept : ∀ past action middle, past ++ [action] <+: actions →
      run step past state = some middle →
      Inv middle →
      ∃ next, step action middle = some next ∧ Inv next)
    (past : List α) (hpast : past <+: actions) :
    ∃ last, run step past state = some last ∧ Inv last := by
  induction past using List.reverseRecOn with
  | nil => exact ⟨state, rfl, holds⟩
  | append_singleton past action ih =>
    obtain ⟨middle, hrun, hmiddle⟩ := ih ((List.prefix_append past [action]).trans hpast)
    obtain ⟨next, hstep, hnext⟩ := kept past action middle hpast hrun hmiddle
    exact ⟨next, run_snoc.mpr ⟨middle, hrun, hstep⟩, hnext⟩

theorem run_always_iff (Inv Good : σ → Prop) (Allowed : α → σ → Prop)
    (good : ∀ state, Inv state → Good state)
    (kept : ∀ action state, Inv state →
      Allowed action state →
      ∃ next, step action state = some next ∧ Inv next)
    (broken : ∀ action state next, Inv state →
      ¬ Allowed action state →
      step action state = some next →
      ¬ Good next)
    (holds : Inv state) :
    (∀ past, past <+: actions →
      ∃ last, run step past state = some last ∧ Good last) ↔
      ∀ past action, past ++ [action] <+: actions →
        ∀ middle, run step past state = some middle →
          Allowed action middle := by
  constructor
  · intro always
    have hallowed : ∀ past action middle, past ++ [action] <+: actions →
        run step past state = some middle → Inv middle →
        Allowed action middle := by
      intro past action middle hpast hrun hmiddle
      by_contra refused
      obtain ⟨last, hlast, hgood⟩ := always _ hpast
      obtain ⟨middle', hrun', hstep⟩ := run_snoc.mp hlast
      cases hrun.symm.trans hrun'
      exact broken action middle last hmiddle refused hstep hgood
    intro past action hpast middle hrun
    have hbefore : past <+: actions := (List.prefix_append past [action]).trans hpast
    obtain ⟨middle', hrun', hmiddle⟩ := run_invariant Inv holds
      (fun past action middle hpast hrun hmiddle => kept action middle hmiddle (hallowed past action
      middle hpast hrun hmiddle)) past hbefore
    cases hrun.symm.trans hrun'
    exact hallowed past action middle hpast hrun hmiddle
  · intro allowed past hpast
    obtain ⟨last, hrun, hlast⟩ := run_invariant Inv holds
      (fun past action middle hpast hrun hmiddle => kept action middle hmiddle (allowed past action
      hpast middle hrun)) past hpast
    exact ⟨last, hrun, good last hlast⟩

theorem run_related {τ : Type v} {other : α → τ → Option τ}
    (Related : σ → τ → Prop)
    (hstep : ∀ action state state', Related state state' →
      Option.Rel Related (step action state) (other action state'))
    (actions : List α) {state : σ} {state' : τ}
    (related : Related state state') :
    Option.Rel Related (run step actions state) (run other actions state') := by
  induction actions generalizing state state' with
  | nil => exact .some related
  | cons action rest ih =>
    have hnext := hstep action state state' related
    rw [run, run]
    cases hone : step action state with
    | none =>
      cases htwo : other action state' with
      | none => exact .none
      | some next' =>
        rw [hone, htwo] at hnext
        cases hnext
    | some next =>
      cases htwo : other action state' with
      | none =>
        rw [hone, htwo] at hnext
        cases hnext
      | some next' =>
        rw [hone, htwo] at hnext
        cases hnext with
        | some related => exact ih related

end PerfProf.Data
