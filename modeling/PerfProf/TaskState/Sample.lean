import PerfProf.Data.Gaps
import PerfProf.Data.SearchMap

namespace PerfProf.TaskState

open Data

/-! `task_state_sample()`: the state of every task and since when. -/

abbrev TASK_RUNNING : Nat := 0
abbrev RUNDELAY : Nat := 2048

inductive Evsel where
  | schedSwitch | schedSwitchNext | schedWakeup | schedWakeupNew | unknown
  deriving DecidableEq, Repr

/-- The fields of a sample that are read; `pid` is that of a wakeup. -/
structure Event where
  evsel : Evsel
  time : Nat
  prevPid : Int
  prevState : Nat
  nextPid : Int
  pid : Int
  deriving DecidableEq, Repr

structure TaskStateNode where
  pid : Int
  state : Nat
  time : Nat
  event : Option Event
  deriving DecidableEq, Repr

structure TaskLostNode where
  ins : Nat
  reclaim : Bool
  startTime : Nat
  endTime : Nat
  deriving DecidableEq, Repr

/-- What is fixed by `task_state_init()`. -/
structure Config where
  stateDead : Nat
  reportMax : Nat
  taskReport : Nat
  filter : Bool
  sd : Bool
  dup : Bool
  greaterThan : Nat

structure Ctx (δ : Type) where
  taskStates : SearchMap δ TaskStateNode.pid
  lostList : List TaskLostNode
  recentTime : Nat

/-- One call of `latency_dist_input()`, with `last - first` as the latency, and
the two events that are printed with it. -/
structure Report where
  instance_ : Int
  key : Nat
  first : Nat
  last : Nat
  printed : Option (Event × Event)
  deriving DecidableEq, Repr

def Report.latency (report : Report) : Nat := report.last - report.first

section Step

variable {δ : Type} (balance : SearchTree.Balance δ TaskStateNode)
variable (config : Config)

def putTask (task : TaskStateNode) (tasks : SearchMap δ TaskStateNode.pid) :
    SearchMap δ TaskStateNode.pid :=
  match tasks.find task.pid with
  | some _ => tasks.set task
  | none => tasks.insert balance task

def printedWith (task : TaskStateNode) (event : Event) :
    Option (Event × Event) :=
  if config.greaterThan ≠ 0 ∧ config.greaterThan < event.time - task.time then
    task.event.map fun first => (first, event)
  else none

def switchPrev (event : Event) (tasks : SearchMap δ TaskStateNode.pid) :
    SearchMap δ TaskStateNode.pid × List Report :=
  if 0 < event.prevPid then
    let found := tasks.find event.prevPid
    let reports := found.elim [] fun task =>
      if task.pid ≠ -1 ∧ task.time < event.time ∧ task.state = TASK_RUNNING then
        [{ instance_ := task.pid, key := TASK_RUNNING, first := task.time
           last := event.time, printed := none }]
      else []
    let state :=
      if event.prevState = config.reportMax then TASK_RUNNING
      else event.prevState
    if event.prevState &&& config.stateDead ≠ 0 then
      (tasks.erase balance event.prevPid, reports)
    else
      (putTask balance
        { pid := event.prevPid, state := state, time := event.time
          event := if config.dup then some event
            else found.bind TaskStateNode.event } tasks,
        reports)
  else (tasks, [])

def switchNext (event : Event) (tasks : SearchMap δ TaskStateNode.pid) :
    SearchMap δ TaskStateNode.pid × List Report :=
  if 0 < event.nextPid then
    let found := tasks.find event.nextPid
    let reports := found.elim [] fun task =>
      if task.pid ≠ -1 ∧ task.time < event.time ∧ task.state = TASK_RUNNING then
        [{ instance_ := task.pid, key := RUNDELAY, first := task.time
           last := event.time, printed := printedWith config task event }]
      else []
    (putTask balance
      { pid := event.nextPid, state := TASK_RUNNING, time := event.time
        event := if config.dup then none else found.bind TaskStateNode.event }
      tasks, reports)
  else (tasks, [])

def wakeup (event : Event) (tasks : SearchMap δ TaskStateNode.pid) :
    SearchMap δ TaskStateNode.pid × List Report :=
  match tasks.find event.pid with
  | none =>
    if config.sd then (tasks, [])
    else
      (putTask balance
        { pid := event.pid, state := TASK_RUNNING, time := event.time
          event := if config.dup then some event else none } tasks, [])
  | some task =>
    let state := task.state &&& config.taskReport
    let reports :=
      if task.pid ≠ -1 ∧ task.time < event.time ∧ state ≠ 0 then
        [{ instance_ := task.pid, key := state, first := task.time
           last := event.time, printed := printedWith config task event }]
      else []
    if config.sd then (tasks.erase balance event.pid, reports)
    else
      (putTask balance
        { pid := event.pid, state := TASK_RUNNING
          time := if task.state ≠ TASK_RUNNING ∨ task.pid = -1 ∨
              event.evsel = .schedWakeupNew then event.time else task.time
          event := if config.dup then some event else task.event } tasks,
        reports)

/-- The part of `task_state_sample()` behind the gaps. -/
def sampleUsed (event : Event) (tasks : SearchMap δ TaskStateNode.pid) :
    SearchMap δ TaskStateNode.pid × List Report :=
  match event.evsel with
  | .schedSwitch =>
    let prev := switchPrev balance config event tasks
    -- `goto parse_next`
    if ¬ config.filter ∧ ¬ config.sd then
      let next := switchNext balance config event prev.1
      (next.1, prev.2 ++ next.2)
    else prev
  | .schedSwitchNext => switchNext balance config event tasks
  | .schedWakeup | .schedWakeupNew => wakeup balance config event tasks
  | .unknown => (tasks, [])

def lostView : GapView TaskLostNode Nat where
  start := TaskLostNode.startTime
  stop := TaskLostNode.endTime
  reclaimed := TaskLostNode.reclaim
  reclaim := fun node => { node with reclaim := true }
  start_reclaim := fun _ => rfl
  stop_reclaim := fun _ => rfl

/-- `task_state_lost()`, on a device that is not a forwarding source. -/
def taskStateLost (ins lostStart lostEnd : Nat) (ctx : Ctx δ) : Ctx δ :=
  { ctx with
    lostList := lostView.add
      { ins := ins, reclaim := false, startTime := lostStart
        endTime := lostEnd } ctx.lostList }

/-- The loop of `task_state_event_lost()`. -/
def taskStateEventLost (time : Nat) (ctx : Ctx δ) :
    List TaskLostNode × SearchMap δ TaskStateNode.pid × Bool :=
  lostView.pass (fun _ _ => .empty) time ctx.lostList ctx.taskStates

def taskStateSample (event : Event) (ctx : Ctx δ) : Ctx δ × List Report :=
  let passed := taskStateEventLost event.time ctx
  let used :=
    if passed.2.2 then (passed.2.1, [])
    else sampleUsed balance config event passed.2.1
  ({ taskStates := used.1, lostList := passed.1
     recentTime := max ctx.recentTime event.time }, used.2)

/-- `task_state_notify()` with `NOTIFY_COMM_DELETE`. -/
def taskStateNotify (pid : Int) (freeTime : Nat) (ctx : Ctx δ) : Ctx δ :=
  match ctx.taskStates.find pid with
  | some task =>
    if task.time < freeTime then
      { ctx with taskStates := ctx.taskStates.erase balance pid }
    else ctx
  | none => ctx

inductive Input where
  | sample (event : Event)
  | lost (ins lostStart lostEnd : Nat)
  | notify (pid : Int) (freeTime : Nat)

def step : Input → Ctx δ → Option (Ctx δ)
  | .sample event, ctx => some (taskStateSample balance config event ctx).1
  | .lost ins lostStart lostEnd, ctx => some (taskStateLost ins lostStart lostEnd ctx)
  | .notify pid freeTime, ctx => some (taskStateNotify balance pid freeTime ctx)

def Ctx.init : Ctx δ :=
  { taskStates := .empty, lostList := [], recentTime := 0 }

end Step

end PerfProf.TaskState
