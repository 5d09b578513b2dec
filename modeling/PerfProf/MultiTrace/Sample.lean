import PerfProf.Data.Transition
import PerfProf.MultiTrace.State

namespace PerfProf.MultiTrace

/-- `remaining` of the classes: whether it returns `REMAINING_CONTINUE`. -/
def remainingContinue (cfg : Config) (reason : RemainingReason) : Bool :=
  match cfg.impl with
  | .delay => reason = .lost && cfg.greaterThan ≠ 0 && cfg.needTimeline
  | .syscalls => reason = .syscalls
  | .pair | .kmemprof => true
  | .call | .callDelay => false

def multiTraceCallRemaining (cfg : Config) (left : Entry)
    (reason : RemainingReason) (recentTime : U64) (state : State) :
    Bool × State :=
  if cfg.objectFind left.tp none then
    (remainingContinue cfg reason, state.log (.remaining left reason recentTime))
  else (true, state)

/-- The loop of `multi_trace_handle_remaining` over the backup tree. -/
def handleRemainingLoop (cfg : Config) (reason : RemainingReason)
    (recentTime : U64) : List Entry → State → State
  | [], state => state
  | left :: rest, state =>
    match multiTraceCallRemaining cfg left reason recentTime state with
    | (true, state) => handleRemainingLoop cfg reason recentTime rest state
    | (false, state) => state

def multiTraceHandleRemaining (cfg : Config) (reason : RemainingReason)
    (recentTime : U64) (state : State) : State :=
  handleRemainingLoop cfg reason recentTime state.backup state

/-- The loop of `reclaim` over the nodes with the key. -/
def reclaimLoop (cfg : Config) (reason : RemainingReason) (recentTime : U64) :
    List Entry → Bool → State → State
  | [], _, state => state
  | node :: rest, true, state =>
    match multiTraceCallRemaining cfg node reason recentTime state with
    | (remaining, state) =>
      reclaimLoop cfg reason recentTime rest remaining (backupRemove cfg node state)
  | node :: rest, false, state =>
    reclaimLoop cfg reason recentTime rest false (backupRemove cfg node state)

def reclaim (cfg : Config) (key : U64) (reason : RemainingReason)
    (recentTime : U64) (state : State) : State :=
  reclaimLoop cfg reason recentTime (state.backup.filter (·.key = key)) true state

def lostReclaim (cfg : Config) (ins : Nat) (recentTime : U64) (state : State) :
    State :=
  match cfg.lostAffect with
  | .insEvent => reclaim cfg (cfg.insKey ins) .lost recentTime state
  | .allEvent => backupExit cfg (multiTraceHandleRemaining cfg .lost recentTime state)

def lostList (cfg : Config) (ins : Nat) (state : State) : List LostNode :=
  match cfg.lostAffect with
  | .insEvent => state.perinsLost ins
  | .allEvent => state.timelineLost

def setLostList (cfg : Config) (ins : Nat) (lost : List LostNode)
    (state : State) : State :=
  match cfg.lostAffect with
  | .insEvent =>
    { state with perinsLost :=
        fun other => if other = ins then lost else state.perinsLost other }
  | .allEvent => { state with timelineLost := lost }

def dropBackup (node : Node) (state : State) : Node × State :=
  if node.needBackup then
    ({ node with needBackup := false }, setUnneeded node.entry state)
  else (node, state)

/-- The loop of `multi_trace_event_lost`: the lost records left, the event and
the state. -/
def eventLostLoop (cfg : Config) :
    List LostNode → Node → State → List LostNode × Node × State
  | [], node, state => ([], node, state)
  | lost :: rest, node, state =>
    if node.entry.time < lost.startTime then (lost :: rest, node, state)
    else if node.entry.time = lost.startTime then
      (lost :: rest, dropBackup node state)
    else
      let state :=
        if lost.reclaim then state
        else lostReclaim cfg node.entry.ins lost.startTime state
      if node.entry.time < lost.endTime then
        ({ lost with reclaim := true } :: rest,
          dropBackup { node with needFindPrev := false } state)
      else eventLostLoop cfg rest node state

def multiTraceEventLost (cfg : Config) (node : Node) (state : State) :
    Node × State :=
  match eventLostLoop cfg (lostList cfg node.entry.ins state) node state with
  | (lost, node, state) => (node, setLostList cfg node.entry.ins lost state)

def multiTraceFindPrev (node : Node) (state : State) : Option Entry :=
  state.backup.find? fun prev =>
    prev.key = node.entry.key && (node.entry.tp1.isNone || node.entry.tp1 = some prev.tp)

/-- The call of `two`, unless there is no object or the events are not in
order. -/
def callTwo (cfg : Config) (prev : Entry) (node : Node) (state : State) :
    State :=
  if cfg.objectFind prev.tp (some node.entry.tp) && prev.time < node.entry.time then
    state.log (.two prev node.entry state.recentTime)
  else state

def multiTraceTrytoCallTwo (cfg : Config) (node : Node) (state : State) :
    Bool × State :=
  if node.needFindPrev then
    match multiTraceFindPrev node state with
    | some prev =>
      let state := callTwo cfg prev node state
      if node.needRemove then (true, backupRemove cfg prev state)
      else (false, state)
    | none =>
      if cfg.impl.basedOnCall && cfg.objectFind node.entry.tp none then
        (false, state.log (.first node.entry))
      else (false, state)
  else (false, state)

def multiTraceTrytoBackup (cfg : Config) (node : Node) (state : State) :
    Bool × State :=
  if node.needBackup then
    match state.backup.find? (backupSame cfg node.entry) with
    | some exist =>
      if node.entry.time < exist.time then
        (true, setUnneeded node.entry state)
      else
        (true, backupNodeNew cfg node.entry (backupRemove cfg exist state))
    | none => (false, backupNodeNew cfg node.entry state)
  else (true, state)

def processEvent (cfg : Config) (node : Node) (state : State) : Bool × State :=
  match multiTraceEventLost cfg node (state.log (.handle node.entry)) with
  | (node, state) =>
    match multiTraceTrytoCallTwo cfg node state with
    | (free1, state) =>
      match multiTraceTrytoBackup cfg node state with
      | (free2, state) => (free1 || free2, state)

def deadline (cfg : Config) (tail : Option Entry) : U64 :=
  match tail with
  | some tail => if cfg.afterEvent2 = 0 then -1 else tail.time - cfg.afterEvent2
  | none => -1

def popPending (first : Node) (rest : List Node) (state : State) : State :=
  let state := (state.setPending rest).count (·.subPending first.entry.size)
  if first.needBackup then state else setUnneeded first.entry state

def multiTraceFirstPending (cfg : Config) (tail : Option Entry)
    (state : State) : Option (Node × State) :=
  match state.pending with
  | [] => none
  | first :: rest =>
    if first.entry.time ≤ deadline cfg tail then
      some (first, popPending first rest state)
    else none

def drainPending (cfg : Config) (tail : Entry) :
    Nat → Bool → State → Bool × State
  | 0, needFree, state => (needFree, state)
  | rounds + 1, needFree, state =>
    match multiTraceFirstPending cfg (some tail) state with
    | none => (needFree, state)
    | some (first, state) =>
      match processEvent cfg first state with
      | (free, state) => drainPending cfg tail rounds (needFree || free) state

/-- The tracepoint of an event selector in one `-e` option, and the last traced
one in front of it. -/
def findInList (evsel : Nat) : Option Tp → List Tp → Option (Option Tp × Tp)
  | _, [] => none
  | tp1, tp :: rest =>
    if tp.evsel = evsel then some (tp1, tp)
    else findInList evsel (if tp.untraced then tp1 else some tp) rest

def findTp (evsel : Nat) : Nat → List (List Tp) → Option (Nat × Option Tp × Tp)
  | _, [] => none
  | index, list :: lists =>
    match findInList evsel none list with
    | some (tp1, tp) => some (index, tp1, tp)
    | none => findTp evsel (index + 1) lists

def roleAsEvent1 (tp : Tp) (sample : Sample) : Bool :=
  sample.dev || !tp.roleProg || sample.asEvent1

def roleAsEvent2 (tp : Tp) (sample : Sample) : Bool :=
  sample.dev || !tp.roleProg || sample.asEvent2

def makeEntry (cfg : Config) (sample : Sample) (tp1 : Option Tp) (tp : Tp)
    (seq : Nat) : Entry where
  seq := seq
  time := sample.time
  key := if tp.keyProg then sample.key else cfg.insKey sample.ins
  tp := tp
  tp1 := if cfg.nested then tp1 else none
  ins := sample.ins
  size := sample.size

def makeNode (cfg : Config) (sample : Sample) (index : Nat) (tp1 : Option Tp)
    (tp : Tp) (seq : Nat) : Node :=
  let entry := makeEntry cfg sample tp1 tp seq
  if cfg.nested then
    { entry := entry
      needFindPrev := cfg.impl.basedOnCall || tp1.isSome
      needBackup := tp1.isNone
      needRemove := tp1.isSome }
  else
    { entry := entry
      needFindPrev := (index ≠ 0 || cfg.cycle) && roleAsEvent2 tp sample
      needBackup :=
        (if index ≠ cfg.tpList.length - 1 then
          sample.dev || !sample.wakeupUnnecessary
        else cfg.cycle) && roleAsEvent1 tp sample
      needRemove := true }

def sampleTimeline (cfg : Config) (node : Node) (state : State) : State :=
  let unneeded := !node.needBackup || node.entry.tp.untraced
  if state.timeline.isEmpty && unneeded && cfg.beforeEvent1 = 0 && cfg.afterEvent2 = 0 then state
  else
    let state := timelineNodeNew node unneeded state
    match drainPending cfg node.entry state.pending.length unneeded state with
    | (needFree, state) =>
      if needFree then timelineFreeUnneeded cfg state else state

def samplePlain (cfg : Config) (node : Node) (state : State) : State :=
  if node.entry.tp.untraced then state else (processEvent cfg node state).2

def sampleFound (cfg : Config) (sample : Sample) (index : Nat)
    (tp1 : Option Tp) (tp : Tp) (state : State) : State :=
  let node := makeNode cfg sample index tp1 tp state.eventHandled
  if cfg.needTimeline then sampleTimeline cfg node state.nextSeq
  else samplePlain cfg node state.nextSeq

def multiTraceSample (cfg : Config) (sample : Sample) (state : State) : State :=
  let state :=
    if state.recentTime < sample.time then state.setRecentTime sample.time
    else state
  match sample.evsel with
  | none => state
  | some evsel =>
    match findTp evsel 0 cfg.tpList with
    | some (index, tp1, tp) => sampleFound cfg sample index tp1 tp state
    | none =>
      if cfg.extraEvsel = some evsel then
        reclaim cfg sample.freePid .syscalls state.recentTime state
      else state

def insertLost (lost : LostNode) : List LostNode → List LostNode
  | [] => [lost]
  | pos :: rest =>
    if lost.startTime < pos.startTime then lost :: pos :: rest
    else pos :: insertLost lost rest

def queueLost (cfg : Config) (lost : LostNode) (queued : List LostNode) :
    List LostNode :=
  match cfg.lostAffect with
  | .insEvent => queued ++ [lost]
  | .allEvent => insertLost lost queued

def multiTraceLost (cfg : Config) (ins : Nat) (startTime endTime : U64)
    (state : State) : State :=
  if !cfg.usingOrder && cfg.afterEvent2 = 0 then
    let state := lostReclaim cfg ins state.recentTime state
    if cfg.needTimeline then timelineFreeUnneeded cfg state else state
  else
    setLostList cfg ins (queueLost cfg ⟨ins, false, startTime, endTime⟩ (lostList cfg ins state))
      state

def flushPending (cfg : Config) : Nat → State → State
  | 0, state => state
  | rounds + 1, state =>
    match multiTraceFirstPending cfg none state with
    | none => state
    | some (_, state) => flushPending cfg rounds state

def timelineExit : Nat → State → State
  | 0, state => state
  | rounds + 1, state => timelineExit rounds (timelineNodeDelete state)

def multiTraceFlush (cfg : Config) (state : State) : State :=
  let state := multiTraceHandleRemaining cfg .exit state.recentTime state
  let state := flushPending cfg state.pending.length state
  let state := backupExit cfg state
  timelineExit state.timeline.length state

inductive Action where
  | sample (sample : Sample)
  | lost (ins : Nat) (startTime endTime : U64)

def step (cfg : Config) : Action → State → Option State
  | .sample sample, state =>
    if sample.time < state.recentTime then none
    else some (multiTraceSample cfg sample state)
  | .lost ins startTime endTime, state => some (multiTraceLost cfg ins startTime endTime state)

end PerfProf.MultiTrace
