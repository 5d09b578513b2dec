import PerfProf.Data.SearchTree
import PerfProf.Oncpu.PrioMap

namespace PerfProf.Oncpu

open Data

abbrev TaskComm := List Nat

structure SchedSwitch where
  prevComm : TaskComm
  prevPid : Int
  prevPrio : Int
  nextPid : Int
  nextPrio : Int
  deriving DecidableEq, Repr

structure SchedStatRuntime where
  comm : TaskComm
  pid : Int
  runtime : BitVec 64
  deriving DecidableEq, Repr

/-- The event of the mode: `sched_stat_runtime` for tasks, `sched_switch` for
cpus. -/
inductive Raw where
  | schedStatRuntime (data : SchedStatRuntime)
  | schedSwitch (data : SchedSwitch)
  deriving DecidableEq, Repr

structure Sample where
  tid : Int
  time : BitVec 64
  cpu : Int
  raw : Raw
  deriving DecidableEq, Repr

structure Runtime where
  ins : Nat
  another : Int
  runtime : BitVec 64
  nrRun : BitVec 64
  max : BitVec 64
  comm : TaskComm
  deriving DecidableEq, Repr

structure RuntimeEntry where
  ins : Nat
  another : Int
  comm : TaskComm
  deriving DecidableEq, Repr

structure SwitchTime where
  runningTime : BitVec 64
  pid : Int
  deriving DecidableEq, Repr

structure Config where
  onlyComm : Bool
  prioMap : Option CpuMap

structure Ctx (δ : Type) where
  switchTime : Nat → SwitchTime
  runtimes : SearchTree δ Runtime

def runtimeNodeCmp (entry : RuntimeEntry) (run : Runtime) : Ordering :=
  (compare run.ins entry.ins).then (compare run.another entry.another)

def runtimeNodeCmpComm (entry : RuntimeEntry) (run : Runtime) : Ordering :=
  (compare run.ins entry.ins).then
    (if entry.another = 0 then compare run.comm entry.comm
    else compare run.another entry.another)

def runtimeNodeNew (entry : RuntimeEntry) : Runtime :=
  { ins := entry.ins, another := entry.another, runtime := 0, nrRun := 0
    max := 0, comm := entry.comm }

def Runtime.add (runtime : BitVec 64) (run : Runtime) : Runtime :=
  { run with
    runtime := run.runtime + runtime
    nrRun := run.nrRun + 1
    max := if run.max < runtime then runtime else run.max }

section Step

variable {δ : Type} (balance : SearchTree.Balance δ Runtime) (config : Config)

/-- The end of `oncpu_sample()`: the node of an entry gets a runtime. -/
def addRuntime (cmp : RuntimeEntry → Runtime → Ordering) (entry : RuntimeEntry)
    (runtime : BitVec 64) (runtimes : SearchTree δ Runtime) :
    SearchTree δ Runtime :=
  let found :=
    match runtimes.find (cmp entry) with
    | some _ => runtimes
    | none =>
      balance.settle runtimes (runtimes.link (cmp entry) balance.fresh (runtimeNodeNew entry))
  found.update (cmp entry) (Runtime.add runtime)

def Config.excludes (prio : Int) : Bool :=
  match config.prioMap with
  | none => false
  | some map => decide (map.idx prio < 0)

def oncpuSample (ins : Nat) (sample : Sample) (ctx : Ctx δ) : Ctx δ :=
  match sample.raw with
  | .schedStatRuntime data =>
    if sample.tid ≠ data.pid then ctx
    else
      { ctx with
        runtimes := addRuntime balance runtimeNodeCmp
          ⟨ins, sample.cpu, data.comm⟩ data.runtime ctx.runtimes }
  | .schedSwitch data =>
    let last := ctx.switchTime ins
    let ctx := { ctx with
      switchTime := Function.update ctx.switchTime ins ⟨sample.time, data.nextPid⟩ }
    if last.runningTime = 0 ∨ last.pid ≠ data.prevPid then ctx
    else if data.prevPid = 0 then ctx
    else if config.excludes data.prevPrio then ctx
    else
      { ctx with
        runtimes := addRuntime balance runtimeNodeCmpComm
          ⟨ins, if config.onlyComm then 0 else data.prevPid, data.prevComm⟩
          (sample.time - last.runningTime) ctx.runtimes }

/-- What `oncpu_interval()` leaves behind. -/
def oncpuInterval (ctx : Ctx δ) : Ctx δ :=
  { ctx with runtimes := .leaf }

/-- The filter on `prev_prio` and on `next_prio` that `oncpu_filter()` installs.
-/
def oncpuFilter : Option (Clauses × Clauses) :=
  config.prioMap.map fun map => (cpuFilter map, cpuFilter map)

def delivers (filter : Option (Clauses × Clauses)) (data : SchedSwitch) :
    Bool :=
  match filter with
  | none => true
  | some (prev, next) => prev.holds data.prevPrio || next.holds data.nextPrio

def Ctx.init : Ctx δ := { switchTime := fun _ => ⟨0#64, 0⟩, runtimes := .leaf }

end Step

end PerfProf.Oncpu
