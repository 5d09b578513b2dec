import PerfProf.Oncpu.Sample

namespace PerfProf.Oncpu

open Data

structure Switch where
  tid : Int
  time : BitVec 64
  cpu : Int
  data : SchedSwitch
  deriving DecidableEq, Repr

def Switch.sample (switch : Switch) : Sample :=
  ⟨switch.tid, switch.time, switch.cpu, .schedSwitch switch.data⟩

inductive Input where
  | event (ins : Nat) (switch : Switch)
  | interval
  deriving DecidableEq, Repr

def Input.delivered (filter : Option (Clauses × Clauses)) : Input → Bool
  | .event _ switch => delivers filter switch.data
  | .interval => true

def Complete (prio : Int → Int) : (Nat → Option Int) → List Input → Prop
  | _, [] => True
  | running, .interval :: rest => Complete prio running rest
  | running, .event ins switch :: rest =>
    (∀ pid ∈ running ins, switch.data.prevPid = pid) ∧
    switch.data.prevPrio = prio switch.data.prevPid ∧
    switch.data.nextPrio = prio switch.data.nextPid ∧
    Complete prio (Function.update running ins (some switch.data.nextPid)) rest

structure Trace where
  inputs : List Input
  prio : Int → Int
  complete : Complete prio (fun _ => none) inputs

section Feed

variable {δ : Type} (balance : SearchTree.Balance δ Runtime)

def feed (config : Config) (inputs : List Input) (ctx : Ctx δ) : Ctx δ :=
  inputs.foldl (fun ctx input =>
    match input with
    | .event ins switch => oncpuSample balance config ins switch.sample ctx
    | .interval => oncpuInterval ctx) ctx

variable (onlyComm : Bool) (map : CpuMap)

theorem excludes_iff (prio : Int) :
    (Config.mk onlyComm (some map)).excludes prio = true ↔ prio ∉ map.map := by
  rw [← map.idx_nonneg_iff]
  simp [Config.excludes]

theorem delivers_iff (data : SchedSwitch) :
    delivers (oncpuFilter ⟨onlyComm, some map⟩) data = true ↔
      data.prevPrio ∈ map.map ∨ data.nextPrio ∈ map.map := by
  rw [← cpuFilter_holds, ← cpuFilter_holds, ← Bool.or_eq_true]
  rfl

theorem switchTime_oncpuSample (config : Config) (ins : Nat) (switch : Switch)
    (ctx : Ctx δ) :
    (oncpuSample balance config ins switch.sample ctx).switchTime =
      Function.update ctx.switchTime ins
        ⟨switch.time, switch.data.nextPid⟩ := by
  simp only [oncpuSample, Switch.sample]
  split
  · rfl
  split
  · rfl
  split
  · rfl
  · rfl

theorem runtimes_of_excluded (ins : Nat) {switch : Switch}
    (hout : switch.data.prevPrio ∉ map.map) (ctx : Ctx δ) :
    (oncpuSample balance ⟨onlyComm, some map⟩ ins switch.sample ctx).runtimes =
      ctx.runtimes := by
  simp only [oncpuSample, Switch.sample]
  split
  · rfl
  split
  · rfl
  rw [if_pos ((excludes_iff onlyComm map _).mpr hout)]

theorem runtimes_congr (config : Config) (ins : Nat) (switch : Switch)
    (hlast : part.switchTime ins = full.switchTime ins)
    (hruntimes : part.runtimes = full.runtimes) :
    (oncpuSample balance config ins switch.sample part).runtimes =
    (oncpuSample balance config ins switch.sample full).runtimes := by
  simp only [oncpuSample, Switch.sample, hlast, hruntimes]
  split
  · rfl
  split
  · rfl
  split
  · rfl
  · rfl

structure Follows (prio : Int → Int) (running : Nat → Option Int)
    (full part : Ctx δ) : Prop where
  runtimes : part.runtimes = full.runtimes
  switchTime : ∀ ins, (∀ pid ∈ running ins, prio pid ∈ map.map) →
    part.switchTime ins = full.switchTime ins

theorem feed_follows {prio : Int → Int} {running : Nat → Option Int}
    (complete : Complete prio running inputs)
    (follows : Follows map prio running full part) :
    (feed balance ⟨onlyComm, some map⟩
      (inputs.filter (Input.delivered (oncpuFilter ⟨onlyComm, some map⟩)))
      part).runtimes =
      (feed balance ⟨onlyComm, some map⟩ inputs full).runtimes := by
  induction inputs generalizing running full part with
  | nil => exact follows.runtimes
  | cons input rest ih =>
    cases input with
    | interval =>
      have hnext : Follows map prio running (oncpuInterval full)
          (oncpuInterval part) := ⟨rfl, follows.switchTime⟩
      exact ih complete hnext
    | event ins switch =>
      obtain ⟨hprev, hprevPrio, hnextPrio, hrest⟩ := complete
      have hruntimes : (oncpuSample balance ⟨onlyComm, some map⟩ ins
          switch.sample part).runtimes = (oncpuSample balance
          ⟨onlyComm, some map⟩ ins switch.sample full).runtimes := by
        by_cases hin : switch.data.prevPrio ∈ map.map
        · refine runtimes_congr balance _ ins switch
            (follows.switchTime ins fun pid hpid => ?_) follows.runtimes
          rw [← hprev pid hpid, ← hprevPrio]
          exact hin
        · rw [runtimes_of_excluded balance onlyComm map ins hin,
            runtimes_of_excluded balance onlyComm map ins hin]
          exact follows.runtimes
      by_cases hpass : Input.delivered (oncpuFilter ⟨onlyComm, some map⟩) (.event ins switch) = true
      · rw [List.filter_cons_of_pos hpass]
        refine ih hrest ⟨hruntimes, fun other hother => ?_⟩
        rw [switchTime_oncpuSample, switchTime_oncpuSample]
        by_cases hsame : other = ins
        · subst hsame
          simp
        · rw [Function.update_of_ne hsame] at hother
          rw [Function.update_of_ne hsame, Function.update_of_ne hsame]
          exact follows.switchTime other hother
      · rw [List.filter_cons_of_neg hpass]
        rw [Input.delivered, delivers_iff, not_or] at hpass
        refine ih hrest ⟨?_, fun other hother => ?_⟩
        · rw [runtimes_of_excluded balance onlyComm map ins hpass.1]
          exact follows.runtimes
        · rw [switchTime_oncpuSample]
          by_cases hsame : other = ins
          · subst hsame
            rw [Function.update_self] at hother
            exact absurd (hnextPrio ▸ hother _ rfl) hpass.2
          · rw [Function.update_of_ne hsame] at hother
            rw [Function.update_of_ne hsame]
            exact follows.switchTime other hother

/-- With the filter the same runtimes are found as without it. -/
theorem prio_filter_exact (trace : Trace) :
    (feed balance ⟨onlyComm, some map⟩
      (trace.inputs.filter
        (Input.delivered (oncpuFilter ⟨onlyComm, some map⟩))) .init).runtimes =
    (feed balance ⟨onlyComm, some map⟩ trace.inputs .init).runtimes :=
  feed_follows balance onlyComm map trace.complete ⟨rfl, fun _ _ => rfl⟩

end Feed

def realtime : CpuMap := ⟨[10, 11], by decide, by decide, by decide⟩

def prioOf (pid : Int) : Int := if pid = 7 then 10 else 120

def switch (time : BitVec 64) (prev next : Int) : Input :=
  .event 0 ⟨prev, time, 0, ⟨[], prev, prioOf prev, next, prioOf next⟩⟩

def fiveSwitches : Trace where
  inputs := [switch 1 0 7, switch 5 7 8, switch 9 8 9, switch 12 9 7, switch 20 7 0]
  prio := prioOf
  complete := by simp [switch, Complete]

/-- Four of the five switches are delivered, and the runtime of the task with
the priority 10 is found from them. -/
theorem prio_filter_exact_five :
    (fiveSwitches.inputs.filter
      (Input.delivered (oncpuFilter ⟨false, some realtime⟩))).length = 4 ∧
    (feed (.plain Runtime) ⟨false, some realtime⟩ fiveSwitches.inputs
      .init).runtimes.toList = [⟨0, 7, 12, 2, 8, []⟩] ∧
    (feed (.plain Runtime) ⟨false, some realtime⟩ (fiveSwitches.inputs.filter
        (Input.delivered (oncpuFilter ⟨false, some realtime⟩)))
      .init).runtimes =
      (feed (.plain Runtime) ⟨false, some realtime⟩ fiveSwitches.inputs
        .init).runtimes :=
  ⟨by decide, by decide +kernel,
    prio_filter_exact (.plain Runtime) false realtime fiveSwitches⟩

end PerfProf.Oncpu
