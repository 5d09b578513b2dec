import PerfProf.Data.Bytes

namespace PerfProf.Spread

open PerfProf.Data

/-- `sizeof(struct perf_event_header)`: type, misc and size. -/
def headerLen : Nat := 8

def headerType (event : Bytes) : Nat := field event 0 4

def headerSize (event : Bytes) : Nat := field event 6 2

def perfRecordSample : Nat := 9

def perfRecordTp : Nat := 86

def bufLen : Nat := 65536

def recordOf (event : Bytes) : Bytes := event.take (headerSize event)

theorem headerSize_lt (event : Bytes) : headerSize event < bufLen :=
  field_lt event 6 2

theorem headerType_congr (same : event.take headerLen = other.take headerLen) :
    headerType event = headerType other :=
  field_take same (by decide)

theorem headerSize_congr (same : event.take headerLen = other.take headerLen) :
    headerSize event = headerSize other :=
  field_take same (by decide)

theorem headerSize_append (whole : headerLen ≤ event.length) (rest : Bytes) :
    headerSize (event ++ rest) = headerSize event :=
  field_append whole rest

theorem headerType_append (whole : headerLen ≤ event.length) (rest : Bytes) :
    headerType (event ++ rest) = headerType event :=
  field_append (Nat.le_trans (by decide) whole) rest

/-- What a block's tracepoint is compared with.  `convert` is
`block_event_convert`: it writes into the memory behind the header, also behind
a record that is too short for its fields, and gives the instance, if there is
one. -/
structure Receiver where
  sys : Bytes
  name : Bytes
  attr : Option (Nat × Nat)
  eventSize : Nat
  enabled : Bool
  convert : Nat → Bytes → Bytes × Option Nat
  convert_length : ∀ id event, (convert id event).1.length = event.length
  convert_header : ∀ id event, (convert id event).1.take headerLen = event.take headerLen

/-- The checks of a `perf_record_tp`: names, sampling, sample type without a
callchain, event size. -/
def Receiver.accepts (receiver : Receiver) (event : Bytes) : Bool :=
  stringAt event (field event 12 2) = receiver.sys &&
    stringAt event (field event 14 2) = receiver.name &&
    match receiver.attr with
    | none => false
    | some (samplePeriod, sampleType) =>
      samplePeriod ≠ 0 && field event 16 8 ≠ 0 && sampleType = field event 24 8 &&
        (field event 24 8).testBit 5 = false &&
        receiver.eventSize = field event 32 4

/-- A record that `perf_event_process_record` gets, for an instance. -/
structure Handed where
  ins : Nat
  record : Bytes
  deriving DecidableEq, Repr

structure Block where
  remoteId : Nat
  handed : List Handed
  freed : Bool
  deriving DecidableEq, Repr

namespace Block

def init : Block := ⟨0, [], false⟩

def hand (ins : Nat) (record : Bytes) (block : Block) : Block :=
  { block with handed := block.handed ++ [⟨ins, record⟩] }

end Block

/-- `block_process_event` on the memory from `event` on.  When it fails the
block has been freed. -/
def blockProcessEvent (receiver : Receiver) (event : Bytes) (block : Block) :
    Bytes × Block :=
  if headerType event = perfRecordTp then
    if receiver.accepts event then
      (event, { block with remoteId := field event 8 4 })
    else (event, { block with freed := true })
  else if receiver.enabled then
    if headerType event = perfRecordSample then
      match receiver.convert block.remoteId event with
      | (event, some ins) => (event, block.hand ins (recordOf event))
      | (event, none) => (event, block)
    else (event, block.hand 0 (recordOf event))
  else (event, block)

/-- What becomes of a record: a `PERF_RECORD_TP` is accepted with its number or
refused, any other record is passed over or handed on for an instance. -/
inductive Fate where
  | accepted (id : Nat)
  | refused
  | passed (event : Bytes)
  | handed (ins : Nat) (event : Bytes)
  deriving DecidableEq, Repr

namespace Fate

/-- The memory that held `event` before. -/
def bytes (event : Bytes) : Fate → Bytes
  | .passed next => next
  | .handed _ next => next
  | _ => event

def apply (block : Block) : Fate → Block
  | .accepted id => { block with remoteId := id }
  | .refused => { block with freed := true }
  | .passed _ => block
  | .handed ins event => block.hand ins (recordOf event)

end Fate

def Receiver.fate (receiver : Receiver) (id : Nat) (event : Bytes) : Fate :=
  if headerType event = perfRecordTp then
    if receiver.accepts event then .accepted (field event 8 4) else .refused
  else if receiver.enabled then
    if headerType event = perfRecordSample then
      match receiver.convert id event with
      | (next, some ins) => .handed ins next
      | (next, none) => .passed next
    else .handed 0 event
  else .passed event

section Process

variable (receiver : Receiver) (event : Bytes) (block : Block)

theorem blockProcessEvent_fate :
    blockProcessEvent receiver event block =
      ((receiver.fate block.remoteId event).bytes event,
        (receiver.fate block.remoteId event).apply block) := by
  unfold blockProcessEvent Receiver.fate
  split_ifs
  · rfl
  · rfl
  · split <;> rfl
  · rfl
  · rfl

theorem fate_bytes (id : Nat) :
    ((receiver.fate id event).bytes event).length = event.length ∧
      ((receiver.fate id event).bytes event).take headerLen =
        event.take headerLen := by
  have hlength := receiver.convert_length id event
  have hheader := receiver.convert_header id event
  unfold Receiver.fate
  split_ifs
  · exact ⟨rfl, rfl⟩
  · exact ⟨rfl, rfl⟩
  · split
    all_goals
      rename_i hconvert
      rw [hconvert] at hlength hheader
      exact ⟨hlength, hheader⟩
  · exact ⟨rfl, rfl⟩
  · exact ⟨rfl, rfl⟩

theorem blockProcessEvent_length :
    (blockProcessEvent receiver event block).1.length = event.length := by
  rw [blockProcessEvent_fate]
  exact (fate_bytes receiver event _).1

theorem blockProcessEvent_headerSize :
    headerSize (blockProcessEvent receiver event block).1 =
      headerSize event := by
  rw [blockProcessEvent_fate]
  exact headerSize_congr (fate_bytes receiver event _).2

def Receiver.refuses (receiver : Receiver) (event : Bytes) : Bool :=
  headerType event = perfRecordTp && !receiver.accepts event

theorem blockProcessEvent_freed (alive : block.freed = false) :
    (blockProcessEvent receiver event block).2.freed =
      receiver.refuses event := by
  rw [blockProcessEvent_fate, Receiver.refuses, Receiver.fate]
  split_ifs with htp haccepts
  · simp [haccepts, Fate.apply, alive]
  · simp [htp, haccepts, Fate.apply]
  all_goals rw [decide_eq_false htp, Bool.false_and]
  · split <;> exact alive
  · exact alive
  · exact alive

theorem blockProcessEvent_refuses (taken : receiver.refuses event = false) :
    receiver.refuses (blockProcessEvent receiver event block).1 = false := by
  rw [blockProcessEvent_fate]
  by_cases htp : headerType event = perfRecordTp
  · have hsame : (receiver.fate block.remoteId event).bytes event = event := by
      rw [Receiver.fate, if_pos htp]
      split <;> rfl
    rw [hsame]
    exact taken
  · have htype := headerType_congr (fate_bytes receiver event block.remoteId).2
    rw [Receiver.refuses, htype, decide_eq_false htp, Bool.false_and]

end Process

/-- What is to be handed on of a sequence of records, for the tracepoint number
that the last `PERF_RECORD_TP` gave: every other record of an enabled device, a
sample converted and only if it has an instance, up to a `PERF_RECORD_TP` that
is refused. -/
def handedOn (receiver : Receiver) : Nat → List Bytes → List Handed
  | _, [] => []
  | id, record :: rest =>
    if headerType record = perfRecordTp then
      if receiver.accepts record then handedOn receiver (field record 8 4) rest
      else []
    else if !receiver.enabled then handedOn receiver id rest
    else if headerType record = perfRecordSample then
      match receiver.convert id record with
      | (converted, some ins) => ⟨ins, converted⟩ :: handedOn receiver id rest
      | (_, none) => handedOn receiver id rest
    else ⟨0, record⟩ :: handedOn receiver id rest

theorem handedOn_cons (receiver : Receiver) (id : Nat) (record : Bytes)
    (rest : List Bytes) :
    handedOn receiver id (record :: rest) =
      match receiver.fate id record with
      | .accepted id => handedOn receiver id rest
      | .refused => []
      | .passed _ => handedOn receiver id rest
      | .handed ins record => ⟨ins, record⟩ :: handedOn receiver id rest := by
  rw [handedOn, Receiver.fate]
  rcases receiver.convert id record with ⟨converted, _ | ins⟩
  all_goals
    cases receiver.enabled with
    | false => split_ifs <;> first | rfl | contradiction
    | true => split_ifs <;> first | rfl | contradiction

end PerfProf.Spread
