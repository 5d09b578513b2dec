import PerfProf.Data.Transition
import PerfProf.Order.Ring

namespace PerfProf.Order

/-! `order_process`, split at the places where it looks at a ring buffer's
head, so that the kernel can append records between any two of them.  All
sources are ring buffers: without stream sources the heap clock is the perf
clock and `heapclock` is the identity. -/

/-- `struct perf_mmap_event` with its `struct heap_event` base.  `event` is the
position and the content of the record read ahead. -/
structure MmapEvent where
  map : Mmap
  event : Option (Nat × Record)
  time : Nat
  writable : Bool
  eventMonoTime : Nat
  maybeLostEnd : Nat
  lostPause : Bool
  deriving DecidableEq, Repr

/-- The part of `struct perf_record_lost` that is kept; `lost = 0` is none. -/
structure LostRecord where
  id : Nat
  lost : Nat
  deriving DecidableEq, Repr

def LostRecord.none : LostRecord := ⟨0, 0⟩

/-- `enum order_break_reason` as far as ring buffers go. -/
inductive BreakReason where
  | unset
  | empty
  | targetTime
  | targetMap
  | lostWait
  deriving DecidableEq, Repr

/-- Calls out of `order_process`: `perf_event_process_record` with the record
as handed over, and `prof->lost` with its start and end time. -/
inductive Output (ι : Type) where
  | record (ins : ι) (position : Nat) (record : Record) (writable : Bool)
  | lost (ins : ι) (lost : LostRecord) (start stop : Nat)
  deriving DecidableEq, Repr

/-- Where the next step of `order_process` continues. -/
inductive Phase (ι : Type) where
  | idle
  | target (ins : ι) (targetTm : Nat)
  | heapInit (todo : List ι)
  | retry (ins : ι) (lost : LostRecord) (todo : List ι)
  | loop
  | consume (ins : ι) (needBreak : Bool)
  | read (ins : ι) (needBreak : Bool)
  | unwind
  deriving DecidableEq, Repr

/-- What does not change between calls: the device of each ring buffer, the
main device, and each device's `prof->lost` and `wakeup_watermark`. -/
structure Config (ι δ : Type) where
  dev : ι → δ
  mainDev : δ
  hasLost : δ → Bool
  wakeupWatermark : δ → BitVec 64
  heapEventList : List ι
  heapEventList_nodup : heapEventList.Nodup

structure State (ι δ : Type) where
  ev : ι → MmapEvent
  heap : List ι
  heapPoppedTime : δ → Nat
  nrUnorderedEvents : δ → Nat
  nrFixedEvents : δ → Nat
  nrLost : δ → Nat
  prevLostTime : Nat
  breakReason : BreakReason
  phase : Phase ι
  lost : LostRecord
  targetMap : Option ι
  targetEnd : Nat
  targetTime : Nat
  out : List (Output ι)

section Steps

variable {ι δ : Type}

namespace State

def emit (s : State ι δ) (output : Output ι) : State ι δ :=
  { s with out := s.out ++ [output] }

def goto (s : State ι δ) (phase : Phase ι) : State ι δ :=
  { s with phase := phase }

def stop (s : State ι δ) (reason : BreakReason) : State ι δ :=
  { s with breakReason := reason, phase := .unwind }

def push (s : State ι δ) (ins : ι) : State ι δ :=
  { s with heap := s.heap ++ [ins] }

end State

/-- `prof->lost`, when a lost record was seen before the current sample. -/
def reportLost (s : State ι δ) (ins : ι) (lost : LostRecord) : State ι δ :=
  if lost.lost = 0 then s
  else s.emit (.lost ins lost (s.ev ins).eventMonoTime (s.ev ins).time)

section

variable (s : State ι δ) (ins : ι) (lost : LostRecord)

@[simp] theorem reportLost_ev : (reportLost s ins lost).ev = s.ev := by
  unfold reportLost
  split <;> rfl

@[simp] theorem reportLost_heap : (reportLost s ins lost).heap = s.heap := by
  unfold reportLost
  split <;> rfl

@[simp] theorem reportLost_phase : (reportLost s ins lost).phase = s.phase := by
  unfold reportLost
  split <;> rfl

@[simp] theorem reportLost_heapPoppedTime :
    (reportLost s ins lost).heapPoppedTime = s.heapPoppedTime := by
  unfold reportLost
  split <;> rfl

@[simp] theorem reportLost_nrUnorderedEvents :
    (reportLost s ins lost).nrUnorderedEvents = s.nrUnorderedEvents := by
  unfold reportLost
  split <;> rfl

end

variable [DecidableEq ι]

namespace State

def setEvent (s : State ι δ) (ins : ι) (ev : MmapEvent) : State ι δ :=
  { s with ev := Function.update s.ev ins ev }

def setMap (s : State ι δ) (ins : ι) (map : Mmap) : State ι δ :=
  s.setEvent ins { s.ev ins with map := map }

def pop (s : State ι δ) (ins : ι) : State ι δ :=
  { s with heap := s.heap.erase ins }

variable (s : State ι δ)

@[simp] theorem setEvent_self (ins : ι) (ev : MmapEvent) :
    (s.setEvent ins ev).ev ins = ev := by
  simp [setEvent]

theorem setEvent_other (ev : MmapEvent)
    (different : other ≠ ins) : (s.setEvent ins ev).ev other = s.ev other := by
  simp [setEvent, different]

theorem setEvent_field {β : Type} (field : MmapEvent → β) (ins : ι)
    (ev : MmapEvent) (same : field ev = field (s.ev ins)) (other : ι) :
    field ((s.setEvent ins ev).ev other) = field (s.ev other) := by
  by_cases equal : other = ins
  · rw [equal, setEvent_self, same]
  · rw [setEvent_other s ev equal]

@[simp] theorem setMap_map_self (ins : ι) (map : Mmap) :
    ((s.setMap ins map).ev ins).map = map := by
  simp [setMap]

theorem setMap_map_other (map : Mmap)
    (different : other ≠ ins) : (s.setMap ins map).ev other = s.ev other :=
  setEvent_other s _ different

@[simp] theorem setMap_event (ins other : ι) (map : Mmap) :
    ((s.setMap ins map).ev other).event = (s.ev other).event :=
  setEvent_field s (·.event) ins { s.ev ins with map := map } rfl other

@[simp] theorem setMap_time (ins other : ι) (map : Mmap) :
    ((s.setMap ins map).ev other).time = (s.ev other).time :=
  setEvent_field s (·.time) ins { s.ev ins with map := map } rfl other

@[simp] theorem setMap_eventMonoTime (ins other : ι) (map : Mmap) :
    ((s.setMap ins map).ev other).eventMonoTime = (s.ev other).eventMonoTime :=
  setEvent_field s (·.eventMonoTime) ins { s.ev ins with map := map } rfl other

end State

def MmapEvent.readAhead (ev : MmapEvent) (map : Mmap) (position : Nat)
    (record : Record) (time : Nat) (writable : Bool) : MmapEvent :=
  { ev with
    map := map
    event := some (position, record)
    time := time
    writable := writable }

/-- `perf_mmap_fix_out_of_order`: the time is written into a private copy of
the record. -/
def fixOutOfOrder (ev : MmapEvent) (time : Nat) : MmapEvent :=
  { ev with
    event := ev.event.map fun event => (event.1, event.2.withTime time)
    time := time
    writable := true }

/-- `order_process` up to `order_heap_init`. -/
def beginHeap (cfg : Config ι δ) (target : Option ι) (targetEnd targetTm : Nat)
    (s : State ι δ) : State ι δ :=
  { s with
    targetMap := target
    targetEnd := targetEnd
    targetTime := if targetTm = 0 then 2 ^ 64 - 1 else targetTm
    lost := .none
    heap := []
    phase := .heapInit cfg.heapEventList }

/-- The entry of `order_process`. -/
def orderProcess (cfg : Config ι δ) (target : Option ι) (targetTm : Nat)
    (s : State ι δ) : State ι δ :=
  match target with
  | none => beginHeap cfg none 0 targetTm s
  | some ins =>
    let (map, ready) := (s.ev ins).map.readInit
    let s := s.setMap ins map
    if ready then s.goto (.target ins targetTm) else s

/-- The second check of the target, `perf_mmap__empty`. -/
def targetStep (cfg : Config ι δ) (ins : ι) (targetTm : Nat) (s : State ι δ) :
    State ι δ :=
  if (s.ev ins).map.empty then s.goto .idle
  else beginHeap cfg (some ins) (s.ev ins).map.endPos targetTm s

/-- `perf_mmap_event_init` up to its `retry` label. -/
def mmapEventInit (ins : ι) (todo : List ι) (s : State ι δ) : State ι δ :=
  if (s.ev ins).map.empty then s.goto (.heapInit todo)
  else
    let (map, ready) := (s.ev ins).map.readInit
    let s := s.setMap ins map
    if ready then s.goto (.retry ins .none todo) else s.goto (.heapInit todo)

/-- Lost detection on the top of the heap: the updated event, or the state to
stop in while the possible lost-start event is kept in the buffer. -/
def lostDetect (cfg : Config ι δ) (ins : ι) (size : Nat) (s : State ι δ) :
    MmapEvent ⊕ State ι δ :=
  let ev := s.ev ins
  let dev := cfg.dev ins
  if cfg.hasLost dev = false then .inl ev
  else if ev.map.endPos ≠ ev.maybeLostEnd then
    let lostEnd :=
      if ev.map.hasSpace (cfg.wakeupWatermark dev + BitVec.ofNat 64 size) then
        ev.map.endPos - 1
      else ev.map.endPos
    .inl { ev with maybeLostEnd := lostEnd, lostPause := false }
  else if ev.map.empty then
    if ev.lostPause then .inr (s.goto .unwind)
    else .inr ((s.setEvent ins { ev with lostPause := true }).stop .lostWait)
  else .inl { ev with lostPause := false }

variable {cfg : Config ι δ}

variable [DecidableEq δ]

namespace State

def countLost (s : State ι δ) (dev : δ) : State ι δ :=
  { s with nrLost := Function.update s.nrLost dev (s.nrLost dev + 1) }

def countFixed (s : State ι δ) (dev : δ) : State ι δ :=
  { s with nrFixedEvents :=
      Function.update s.nrFixedEvents dev (s.nrFixedEvents dev + 1) }

def countUnordered (s : State ι δ) (dev : δ) : State ι δ :=
  { s with nrUnorderedEvents :=
      Function.update s.nrUnorderedEvents dev (s.nrUnorderedEvents dev + 1) }

def setPopped (s : State ι δ) (dev : δ) (time : Nat) : State ι δ :=
  { s with heapPoppedTime := Function.update s.heapPoppedTime dev time }

end State

def fixAtInit (cfg : Config ι δ) (ins : ι) (ev : MmapEvent) (s : State ι δ) :
    State ι δ :=
  let popped := s.heapPoppedTime cfg.mainDev
  if ev.time < popped then
    (s.setEvent ins (fixOutOfOrder ev popped)).countFixed (cfg.dev ins)
  else s.setEvent ins ev

/-- One turn of the `retry` loop of `perf_mmap_event_init`. -/
def mmapEventRetry (cfg : Config ι δ) (ins : ι) (lost : LostRecord)
    (todo : List ι) (s : State ι δ) : State ι δ :=
  match (s.ev ins).map.readEvent with
  | (map, none) => (s.setMap ins map.readDone).goto (.heapInit todo)
  | (map, some (position, record, writable)) =>
    match record.payload with
    | .sample time =>
      let ev := (s.ev ins).readAhead map position record time writable
      let s := reportLost (fixAtInit cfg ins ev s) ins lost
      (s.push ins).goto (.heapInit todo)
    | .lost id count =>
      let s := (s.countLost (cfg.dev ins)).setMap ins map.consume
      if cfg.hasLost (cfg.dev ins) then
        s.goto (.retry ins ⟨id, count⟩ todo)
      else
        (s.emit (.record ins position record writable)).goto (.retry ins lost todo)
    | .other =>
      ((s.setMap ins map.consume).emit
        (.record ins position record writable)).goto (.retry ins lost todo)

def keepMono (cfg : Config ι δ) (ins : ι) (ev : MmapEvent) (s : State ι δ) :
    State ι δ :=
  if ev.time < ev.eventMonoTime then
    (s.setEvent ins (fixOutOfOrder ev ev.eventMonoTime)).countFixed (cfg.dev ins)
  else s.setEvent ins { ev with eventMonoTime := ev.time }

def keepPopped (cfg : Config ι δ) (ins : ι) (time : Nat) (s : State ι δ) :
    State ι δ :=
  let dev := cfg.dev ins
  let s := if dev = cfg.mainDev then s else s.setPopped dev time
  if time < s.heapPoppedTime cfg.mainDev then s.countUnordered dev
  else s.setPopped cfg.mainDev time

def popEvent (cfg : Config ι δ) (ins : ι) (position : Nat) (record : Record)
    (ev : MmapEvent) (s : State ι δ) : State ι δ :=
  let record :=
    if ev.time < ev.eventMonoTime then record.withTime ev.eventMonoTime
    else record
  let s := keepMono cfg ins ev s
  let s := keepPopped cfg ins (s.ev ins).time s
  (s.emit (.record ins position record (s.ev ins).writable)).goto (.consume ins false)

/-- One turn of the main loop on the top of the heap, up to `consume`. -/
def processTop (cfg : Config ι δ) (ins : ι) (s : State ι δ) :
    Option (State ι δ) :=
  match (s.ev ins).event with
  | none => none
  | some (position, record) =>
    if (s.ev ins).time > s.targetTime then some (s.stop .targetTime)
    else
      match lostDetect cfg ins record.size s with
      | .inr stopped => some stopped
      | .inl ev => some (popEvent cfg ins position record ev s)

/-- What a turn of the main loop does with the top of the heap. -/
inductive Turned (cfg : Config ι δ) (ins : ι) (s : State ι δ) :
    State ι δ → Prop
  | late : Turned cfg ins s (s.stop .targetTime)
  | kept : Turned cfg ins s (s.goto .unwind)
  | paused :
      Turned cfg ins s
        ((s.setEvent ins { s.ev ins with lostPause := true }).stop .lostWait)
  | popped {position : Nat} {record : Record}
      (hevent : (s.ev ins).event = some (position, record))
      (lostEnd : Nat) (pause : Bool) :
      Turned cfg ins s (popEvent cfg ins position record
        { s.ev ins with maybeLostEnd := lostEnd, lostPause := pause } s)

theorem processTop_turned (hstep : processTop cfg ins s = some next) :
    Turned cfg ins s next := by
  unfold processTop lostDetect at hstep
  dsimp only at hstep
  split at hstep
  · cases hstep
  · rename_i position record hevent
    split_ifs at hstep <;> cases hstep
    · exact .late
    · exact .popped hevent (s.ev ins).maybeLostEnd (s.ev ins).lostPause
    · exact .popped hevent _ false
    · exact .popped hevent _ false
    · exact .kept
    · exact .paused
    · exact .popped hevent (s.ev ins).maybeLostEnd false

/-- At the `consume` label the tail is only moved when no loss is expected or
there is room for it. -/
def consumeMap (cfg : Config ι δ) (ins : ι) (ev : MmapEvent) : Mmap :=
  if ev.map.endPos ≠ ev.maybeLostEnd ∨ ev.map.hasSpace (cfg.wakeupWatermark (cfg.dev ins) / 2) then
    ev.map.consume
  else ev.map

/-- The `consume` label and the check for the target's last event. -/
def consumeStep (cfg : Config ι δ) (ins : ι) (needBreak : Bool)
    (s : State ι δ) : State ι δ :=
  let s := s.setMap ins (consumeMap cfg ins (s.ev ins))
  if s.targetMap = some ins ∧ (s.ev ins).map.start = s.targetEnd then
    { s with breakReason := .targetMap, phase := .read ins true }
  else s.goto (.read ins needBreak)

def flushLost (ins : ι) (s : State ι δ) : State ι δ :=
  if s.lost.lost = 0 then s
  else
    { reportLost s ins s.lost with
      prevLostTime := max s.prevLostTime (s.ev ins).eventMonoTime
      lost := .none }

omit [DecidableEq ι] [DecidableEq δ] in
@[simp] theorem flushLost_phase (ins : ι) (s : State ι δ) :
    (flushLost ins s).phase = s.phase := by
  unfold flushLost
  split
  · rfl
  · exact reportLost_phase s ins s.lost

def readStep (cfg : Config ι δ) (ins : ι) (needBreak : Bool) (s : State ι δ) :
    State ι δ :=
  let resume : Phase ι := if needBreak then .unwind else .loop
  match (s.ev ins).map.readEvent with
  | (map, none) => ((s.setMap ins map.readDone).pop ins).goto resume
  | (map, some (position, record, writable)) =>
    match record.payload with
    | .sample time =>
      let ev := (s.ev ins).readAhead map position record time writable
      (flushLost ins (s.setEvent ins ev)).goto resume
    | .lost id count =>
      let s := (s.countLost (cfg.dev ins)).setMap ins map
      if cfg.hasLost (cfg.dev ins) then
        { s with lost := ⟨id, count⟩, phase := .consume ins needBreak }
      else
        (s.emit (.record ins position record writable)).goto (.consume ins needBreak)
    | .other =>
      ((s.setMap ins map).emit (.record ins position record writable)).goto (.consume ins needBreak)

def unwindStep (s : State ι δ) : State ι δ :=
  match s.heap with
  | [] => s.goto .idle
  | ins :: rest =>
    let ev := s.ev ins
    let map :=
      match ev.event with
      | none => ev.map
      | some event => ev.map.unreadEvent event.2
    { s.setMap ins map.consume with heap := rest }

/-- What can happen next: the kernel appends a record, an overwrite-mode buffer
changes under the reader, a call starts, or the running call takes a step.
`top` is the element a correct min-heap has on top. -/
inductive Action (ι : Type) where
  | arrive (ins : ι) (record : Record)
  | scribble (ins : ι) (map : Mmap)
  | call (target : Option ι) (targetTm : Nat)
  | advance (top : ι)

def advance (cfg : Config ι δ) (top : ι) (s : State ι δ) : Option (State ι δ) :=
  match s.phase with
  | .idle => none
  | .target ins targetTm => some (targetStep cfg ins targetTm s)
  | .heapInit [] => some (s.goto .loop)
  | .heapInit (ins :: todo) => some (mmapEventInit ins todo s)
  | .retry ins lost todo => some (mmapEventRetry cfg ins lost todo s)
  | .loop =>
    if s.heap = [] then some (s.stop .empty)
    else if top ∈ s.heap ∧ ∀ other ∈ s.heap, (s.ev top).time ≤ (s.ev other).time
      then processTop cfg top s
    else none
  | .consume ins needBreak => some (consumeStep cfg ins needBreak s)
  | .read ins needBreak => some (readStep cfg ins needBreak s)
  | .unwind => some (unwindStep s)

def step (cfg : Config ι δ) (action : Action ι) (s : State ι δ) :
    Option (State ι δ) :=
  match action with
  | .arrive ins record =>
    match (s.ev ins).map.append record with
    | none => none
    | some map => some (s.setMap ins map)
  | .scribble ins map =>
    if (s.ev ins).map.overwrite ∧ map.overwrite then
      some (s.setMap ins map)
    else none
  | .call target targetTm =>
    if s.phase = .idle then some (orderProcess cfg target targetTm s)
    else none
  | .advance top => advance cfg top s

/-- What a step does, by the phase it finds. -/
inductive Stepped (cfg : Config ι δ) (s : State ι δ) :
    Action ι → State ι δ → Prop
  | arrive {ins : ι} {record : Record} {map : Mmap}
      (appended : (s.ev ins).map.append record = some map) :
      Stepped cfg s (.arrive ins record) (s.setMap ins map)
  | scribble {ins : ι} {map : Mmap} (old : (s.ev ins).map.overwrite = true) :
      Stepped cfg s (.scribble ins map) (s.setMap ins map)
  | call (target : Option ι) (targetTm : Nat) (hphase : s.phase = .idle) :
      Stepped cfg s (.call target targetTm) (orderProcess cfg target targetTm s)
  | target {top ins : ι} {targetTm : Nat}
      (hphase : s.phase = .target ins targetTm) :
      Stepped cfg s (.advance top) (targetStep cfg ins targetTm s)
  | filled {top : ι} (hphase : s.phase = .heapInit []) :
      Stepped cfg s (.advance top) (s.goto .loop)
  | init {top ins : ι} {todo : List ι}
      (hphase : s.phase = .heapInit (ins :: todo)) :
      Stepped cfg s (.advance top) (mmapEventInit ins todo s)
  | retry {top ins : ι} {lost : LostRecord} {todo : List ι}
      (hphase : s.phase = .retry ins lost todo) :
      Stepped cfg s (.advance top) (mmapEventRetry cfg ins lost todo s)
  | empty {top : ι} (hphase : s.phase = .loop) :
      Stepped cfg s (.advance top) (s.stop .empty)
  | top {top : ι} {next : State ι δ} (hphase : s.phase = .loop)
      (member : top ∈ s.heap)
      (least : ∀ other ∈ s.heap, (s.ev top).time ≤ (s.ev other).time)
      (htop : processTop cfg top s = some next) :
      Stepped cfg s (.advance top) next
  | consume {top ins : ι} {needBreak : Bool}
      (hphase : s.phase = .consume ins needBreak) :
      Stepped cfg s (.advance top) (consumeStep cfg ins needBreak s)
  | read {top ins : ι} {needBreak : Bool}
      (hphase : s.phase = .read ins needBreak) :
      Stepped cfg s (.advance top) (readStep cfg ins needBreak s)
  | unwind {top : ι} (hphase : s.phase = .unwind) :
      Stepped cfg s (.advance top) (unwindStep s)

theorem step_stepped (hstep : step cfg action s = some next) :
    Stepped cfg s action next := by
  unfold step advance at hstep
  grind [Stepped]

/-- A buffer after `perf_evlist__mmap`: the reference count starts at two and
every further event sharing the buffer takes one more. -/
def Mmap.mapped (overwrite : Bool) (mask flush shared : Nat) : Mmap :=
  { overwrite := overwrite
    mask := mask
    flush := flush
    refcnt := 2 + shared
    log := []
    tail := 0
    prev := 0
    start := 0
    endPos := 0 }

def State.init (map : ι → Mmap) : State ι δ :=
  { ev := fun ins =>
      { map := map ins
        event := none
        time := 0
        writable := false
        eventMonoTime := 0
        maybeLostEnd := 0
        lostPause := false }
    heap := []
    heapPoppedTime := fun _ => 0
    nrUnorderedEvents := fun _ => 0
    nrFixedEvents := fun _ => 0
    nrLost := fun _ => 0
    prevLostTime := 0
    breakReason := .unset
    phase := .idle
    lost := .none
    targetMap := none
    targetEnd := 0
    targetTime := 0
    out := [] }

end Steps

end PerfProf.Order
