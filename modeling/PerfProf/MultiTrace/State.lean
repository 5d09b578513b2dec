import Mathlib.Algebra.Order.Ring.Int
import Mathlib.Order.Fin.Basic

namespace PerfProf.MultiTrace

abbrev U64 := Fin (2 ^ 64)

instance U64.neZero : NeZero (2 ^ 64) := inferInstance

/-- A tracepoint of an `-e` option; `keyProg` and `roleProg` tell whether it has
the attributes `key=` and `role=`. -/
structure Tp where
  evsel : Nat
  untraced : Bool
  keyProg : Bool
  roleProg : Bool
  deriving DecidableEq, Repr

inductive Impl where
  | delay
  | pair
  | kmemprof
  | syscalls
  | call
  | callDelay
  deriving DecidableEq, Repr

def Impl.basedOnCall : Impl → Bool
  | .call | .callDelay => true
  | _ => false

inductive LostAffect where
  | allEvent
  | insEvent
  deriving DecidableEq, Repr

inductive RemainingReason where
  | lost
  | syscalls
  | exit
  deriving DecidableEq, Repr

/-- What is fixed once the profiler is set up.  `objectFind` tells which objects
the class holds, `insKey` is the CPU or thread of an instance. -/
structure Config where
  tpList : List (List Tp)
  impl : Impl
  objectFind : Tp → Option Tp → Bool
  nested : Bool
  cycle : Bool
  needTimeline : Bool
  usingOrder : Bool
  beforeEvent1 : U64
  afterEvent2 : U64
  greaterThan : U64
  lostAffect : LostAffect
  insKey : Nat → U64
  extraEvsel : Option Nat
  callNested : impl.basedOnCall = true → nested = true

/-- A record handed to `multi_trace_sample`, with what the programs of the
tracepoint's attributes compute from it. -/
structure Sample where
  evsel : Option Nat
  dev : Bool
  time : U64
  ins : Nat
  size : Nat
  key : U64
  asEvent1 : Bool
  asEvent2 : Bool
  wakeupUnnecessary : Bool
  freePid : U64
  deriving DecidableEq, Repr

structure Entry where
  seq : Nat
  time : U64
  key : U64
  tp : Tp
  tp1 : Option Tp
  ins : Nat
  size : Nat
  deriving DecidableEq, Repr

structure Node where
  entry : Entry
  needFindPrev : Bool
  needBackup : Bool
  needRemove : Bool
  deriving DecidableEq, Repr

structure TimelineNode where
  entry : Entry
  unneeded : Bool
  deriving DecidableEq, Repr

structure LostNode where
  ins : Nat
  reclaim : Bool
  startTime : U64
  endTime : U64
  deriving DecidableEq, Repr

/-- `underflow` records whether a counter was ever lowered below zero. -/
structure TimelineStat where
  new : Nat
  delete : Nat
  unneeded : Nat
  unneededBytes : Nat
  pending : Nat
  pendingBytes : Nat
  memBytes : Nat
  underflow : Bool
  deriving DecidableEq, Repr

/-- What the profiler does that can be observed: it starts to process an event,
puts it into the backup tree, takes it out, and calls its class. -/
inductive Act where
  | handle (event : Entry)
  | backup (event : Entry)
  | remove (event : Entry)
  | two (prev cur : Entry) (recentTime : U64)
  | first (event : Entry)
  | remaining (left : Entry) (reason : RemainingReason) (recentTime : U64)
  deriving DecidableEq, Repr

/-- `bug` records a message that starts with `BUG`. -/
structure State where
  backup : List Entry
  timeline : List TimelineNode
  needed : List Entry
  pending : List Node
  timelineLost : List LostNode
  perinsLost : Nat → List LostNode
  recentTime : U64
  eventHandled : Nat
  tlStat : TimelineStat
  bug : Bool
  acts : List Act

def State.init : State where
  backup := []
  timeline := []
  needed := []
  pending := []
  timelineLost := []
  perinsLost _ := []
  recentTime := 0
  eventHandled := 0
  tlStat := ⟨0, 0, 0, 0, 0, 0, 0, false⟩
  bug := false
  acts := []

namespace TimelineStat

def addUnneeded (stat : TimelineStat) (size : Nat) : TimelineStat :=
  { stat with
    unneeded := stat.unneeded + 1
    unneededBytes := stat.unneededBytes + size }

def subUnneeded (stat : TimelineStat) (size : Nat) : TimelineStat :=
  { stat with
    unneeded := stat.unneeded - 1
    unneededBytes := stat.unneededBytes - size
    underflow := stat.underflow || stat.unneeded < 1 || stat.unneededBytes < size }

def addPending (stat : TimelineStat) (size : Nat) : TimelineStat :=
  { stat with
    pending := stat.pending + 1
    pendingBytes := stat.pendingBytes + size }

def subPending (stat : TimelineStat) (size : Nat) : TimelineStat :=
  { stat with
    pending := stat.pending - 1
    pendingBytes := stat.pendingBytes - size
    underflow := stat.underflow || stat.pending < 1 || stat.pendingBytes < size }

def addNode (stat : TimelineStat) (size : Nat) : TimelineStat :=
  { stat with new := stat.new + 1, memBytes := stat.memBytes + size }

def subNode (stat : TimelineStat) (size : Nat) : TimelineStat :=
  { stat with
    delete := stat.delete + 1
    memBytes := stat.memBytes - size
    underflow := stat.underflow || stat.memBytes < size }

end TimelineStat

namespace State

def log (act : Act) (state : State) : State :=
  { state with acts := state.acts ++ [act] }

def count (change : TimelineStat → TimelineStat) (state : State) : State :=
  { state with tlStat := change state.tlStat }

def reportBug (state : State) : State := { state with bug := true }

def setTimeline (timeline : List TimelineNode) (state : State) : State :=
  { state with timeline := timeline }

def setBackup (backup : List Entry) (state : State) : State :=
  { state with backup := backup }

def setNeeded (needed : List Entry) (state : State) : State :=
  { state with needed := needed }

def setPending (pending : List Node) (state : State) : State :=
  { state with pending := pending }

def nextSeq (state : State) : State :=
  { state with eventHandled := state.eventHandled + 1 }

def setRecentTime (time : U64) (state : State) : State :=
  { state with recentTime := time }

end State

/-- `node_cmp` of the backup tree: the entry belongs in front of the node. -/
def backupBefore (cfg : Config) (event node : Entry) : Bool :=
  event.key < node.key || (cfg.nested && event.key = node.key && node.time < event.time)

def backupSame (cfg : Config) (event node : Entry) : Bool :=
  event.key = node.key && (!cfg.nested || event.time = node.time)

def backupInsert (cfg : Config) (event : Entry) : List Entry → List Entry
  | [] => [event]
  | node :: rest =>
    if backupBefore cfg event node then event :: node :: rest
    else node :: backupInsert cfg event rest

/-- `unneeded = 1` on the timeline node of an event. -/
def markUnneeded (event : Entry) (timeline : List TimelineNode) :
    List TimelineNode :=
  timeline.map fun node =>
    if node.entry = event then { node with unneeded := true } else node

def setUnneeded (event : Entry) (state : State) : State :=
  (state.setTimeline (markUnneeded event state.timeline)).count (·.addUnneeded event.size)

/-- Insert with `perf_event_backup_node_new`. -/
def backupNodeNew (cfg : Config) (event : Entry) (state : State) : State :=
  let state := (state.setBackup (backupInsert cfg event state.backup)).log (.backup event)
  if cfg.needTimeline then state.setNeeded (state.needed ++ [event]) else state

def perfEventBackupNodeDelete (cfg : Config) (event : Entry) (state : State) :
    State :=
  let state := state.log (.remove event)
  if cfg.needTimeline then
    setUnneeded event (state.setNeeded (state.needed.erase event))
  else state

def backupRemove (cfg : Config) (event : Entry) (state : State) : State :=
  perfEventBackupNodeDelete cfg event (state.setBackup (state.backup.erase event))

def backupExit (cfg : Config) (state : State) : State :=
  state.backup.foldl (fun state event => backupRemove cfg event state) state

def timelineBefore (event node : Entry) : Bool :=
  event.time < node.time || (event.time = node.time && (event.key < node.key ||
      (event.key = node.key && event.seq < node.seq)))

def timelineInsert (new : TimelineNode) : List TimelineNode → List TimelineNode
  | [] => [new]
  | node :: rest =>
    if timelineBefore new.entry node.entry then new :: node :: rest
    else node :: timelineInsert new rest

/-- Insert with `timeline_node_new`; `unneeded` is the flag of the entry. -/
def timelineNodeNew (node : Node) (unneeded : Bool) (state : State) : State :=
  let size := node.entry.size
  if node.entry.tp.untraced then
    let state := (state.setTimeline (timelineInsert ⟨node.entry, unneeded⟩ state.timeline)).count
        (·.addNode size)
    if unneeded then state.count (·.addUnneeded size) else state
  else
    ((state.setTimeline (timelineInsert ⟨node.entry, false⟩ state.timeline)).setPending
      (state.pending ++ [node])).count (fun stat => (stat.addPending size).addNode size)

/-- The links and counters of a node that `timeline_node_delete` gives up. -/
def releaseNode (node : TimelineNode) (state : State) : State :=
  let size := node.entry.size
  let state :=
    if state.pending.any (·.entry = node.entry) then
      (state.setPending (state.pending.filter (·.entry ≠ node.entry))).reportBug
    else state
  let state := state.count (·.subNode size)
  if node.unneeded then state.count (·.subUnneeded size) else state

def timelineNodeDelete (state : State) : State :=
  match state.timeline with
  | [] => state
  | node :: rest => releaseNode node (state.setTimeline rest)

/-- The time up to which `timeline_free_unneeded` frees; zero stands for the
first event that is still needed. -/
def unneededBefore (cfg : Config) (state : State) : U64 :=
  if cfg.beforeEvent1 = 0 then 0
  else
    let neededFirst := match state.needed, state.pending with
      | event :: _, _ => some event
      | [], node :: _ => some node.entry
      | [], [] => state.timeline.getLast?.map TimelineNode.entry
    match neededFirst with
    | some event =>
      if cfg.beforeEvent1 < event.time then event.time - cfg.beforeEvent1
      else 0
    | none => 0

/-- The loop of `timeline_free_unneeded`; it takes off a node in each round. -/
def freeUnneededLoop (cfg : Config) (before : U64) : Nat → State → State
  | 0, state => state
  | rounds + 1, state =>
    match state.timeline with
    | [] => state
    | node :: _ =>
      if (before = 0 && node.unneeded) || node.entry.time < before then
        let state :=
          if node.unneeded then state
          else if state.backup.contains node.entry then
            backupRemove cfg node.entry state
          else state.reportBug
        freeUnneededLoop cfg before rounds (timelineNodeDelete state)
      else state

def timelineFreeUnneeded (cfg : Config) (state : State) : State :=
  freeUnneededLoop cfg (unneededBefore cfg state) state.timeline.length state

end PerfProf.MultiTrace
