import PerfProf.Data.Bytes
import PerfProf.Data.Layout

namespace PerfProf.Convert

open Data

/-- The members in the order of `perf_event_members()`. -/
inductive Part where
  | identifier | ip | pid | tid | time | addr | id | streamId | cpu | period
  | read | callchain | raw | branchStack | regsUser | stackUser
  | weight | weightStruct | dataSrc | transaction | regsIntr | physAddr
  | aux | cgroup | dataPageSize | codePageSize
  deriving DecidableEq, Repr

/-- The bit of `PERF_SAMPLE_...` in `sample_type`. -/
def Part.bit : Part → Nat
  | .ip => 0 | .pid | .tid => 1 | .time => 2 | .addr => 3 | .read => 4
  | .callchain => 5 | .id => 6 | .cpu => 7 | .period => 8 | .streamId => 9
  | .raw => 10 | .branchStack => 11 | .regsUser => 12 | .stackUser => 13
  | .weight => 14 | .dataSrc => 15 | .identifier => 16 | .transaction => 17
  | .regsIntr => 18 | .physAddr => 19 | .aux => 20 | .cgroup => 21
  | .dataPageSize => 22 | .codePageSize => 23 | .weightStruct => 24

/-- `sample_type & PERF_SAMPLE_...`, the weight being one member for both of its
formats. -/
def Part.sampled (sampleType : BitVec 64) : Part → Bool
  | .weightStruct => sampleType.getLsbD Part.weightStruct.bit && !sampleType.getLsbD Part.weight.bit
  | part => sampleType.getLsbD part.bit

structure Attr where
  samplePeriod : BitVec 64
  sampleType : BitVec 64
  readFormat : BitVec 64
  sampleRegsUser : BitVec 64
  sampleRegsIntr : BitVec 64
  deriving DecidableEq, Repr

structure Evsel where
  attr : Attr
  nrMembers : Nat
  deriving DecidableEq, Repr

def hweight64 (mask : BitVec 64) : Nat :=
  (List.range 64).countP fun bit => mask.getLsbD bit

namespace Attr

def timeEnabled (attr : Attr) : Bool := attr.readFormat.getLsbD 0
def timeRunning (attr : Attr) : Bool := attr.readFormat.getLsbD 1
def formatId (attr : Attr) : Bool := attr.readFormat.getLsbD 2
def group (attr : Attr) : Bool := attr.readFormat.getLsbD 3
def lost (attr : Attr) : Bool := attr.readFormat.getLsbD 4

end Attr

def Evsel.readSize (evsel : Evsel) : Nat :=
  let entry := 8
  let size := 0
  let size := if evsel.attr.timeEnabled then size + 8 else size
  let size := if evsel.attr.timeRunning then size + 8 else size
  let entry := if evsel.attr.formatId then entry + 8 else entry
  let entry := if evsel.attr.lost then entry + 8 else entry
  let nr := if evsel.attr.group then evsel.nrMembers else 1
  let size := if evsel.attr.group then size + 8 else size
  size + entry * nr

/-- One use of `ADD_MEMBER`: the `sz` it is given, the `size` the member ends
with and what the use itself adds to the offset. -/
structure Entry where
  part : Part
  sz : Nat
  size : Nat
  pad : Nat
  deriving DecidableEq, Repr

def Entry.plain (part : Part) (sz : Nat) : Entry :=
  { part := part, sz := sz, size := sz, pad := 0 }

def Evsel.entries (evsel : Evsel) : List Entry :=
  [.plain .identifier 8, .plain .ip 8, .plain .pid 4, .plain .tid 4,
    .plain .time 8, .plain .addr 8, .plain .id 8, .plain .streamId 8,
    { part := .cpu, sz := 4, size := 4, pad := 4 }, .plain .period 8,
    .plain .read evsel.readSize,
    .plain .callchain 0, .plain .raw 0, .plain .branchStack 0,
    { part := .regsUser, sz := 0, pad := 0
      size := 8 + hweight64 evsel.attr.sampleRegsUser * 8 },
    .plain .stackUser 0, .plain .weight 8, .plain .weightStruct 8,
    .plain .dataSrc 8, .plain .transaction 8,
    { part := .regsIntr, sz := 0, pad := 0
      size := 8 + hweight64 evsel.attr.sampleRegsIntr * 8 },
    .plain .physAddr 8, .plain .aux 0, .plain .cgroup 8,
    .plain .dataPageSize 8, .plain .codePageSize 8]

structure Member where
  part : Part
  offset : Nat
  size : Nat
  deps : BitVec 64
  deriving DecidableEq, Repr

structure Table where
  members : List Member
  offset : Nat
  deps : BitVec 64
  deriving DecidableEq, Repr

namespace Table

def start : Table := { members := [], offset := 0, deps := 0 }

def put (table : Table) (entry : Entry) : Table :=
  { members := table.members ++
      [{ part := entry.part, offset := table.offset, size := entry.size
         deps := table.deps }]
    offset := table.offset + entry.pad + entry.sz
    deps :=
      if entry.sz = 0 then table.deps ||| BitVec.twoPow 64 entry.part.bit
      else table.deps }

def addMember (sampleType : BitVec 64) (table : Table) (entry : Entry) :
    Table :=
  if entry.part.sampled sampleType then table.put entry else table

end Table

structure Cache where
  sampleType : BitVec 64
  members : List Member
  deriving DecidableEq, Repr

def Evsel.sampleType (evsel : Evsel) : BitVec 64 :=
  evsel.attr.sampleType &&& 0x1ffffff

def perfEventMembers (evsel : Evsel) : Option Cache :=
  if evsel.sampleType = 0 then none
  else
    some
      { sampleType := evsel.sampleType
        members :=
          (evsel.entries.foldl (Table.addMember evsel.sampleType) .start).members }

def Cache.member? (cache : Cache) (part : Part) : Option Member :=
  cache.members.find? fun member => decide (member.part = part)

/-- What `perf_event_member_offset()` takes a member of variable size to occupy
at a place of the sample. -/
def Part.taken (part : Part) (size : Nat) (data : Bytes) (place : Nat) : Nat :=
  match part with
  | .callchain => 8 + field data place 8 * 8
  | .raw => 4 + field data place 4
  | .branchStack => 8 + field data place 8 * 24
  | .regsUser | .regsIntr => if field data place 8 ≠ 0 then size else 8
  | .stackUser => 8 + (if field data place 8 ≠ 0 then field data place 8 + 8 else 0)
  | .aux => 8 + field data place 8
  | _ => 0

/-- The members `perf_event_member_offset()` looks at, in its order. -/
def readers : List Part :=
  [.callchain, .raw, .branchStack, .regsUser, .stackUser, .regsIntr, .aux]

namespace Cache

def skip (cache : Cache) (deps : BitVec 64) (data : Bytes) (depsSize : Nat)
    (part : Part) : Nat :=
  if deps.getLsbD part.bit then
    match cache.member? part with
    | some dep => depsSize + part.taken dep.size data (dep.offset + depsSize)
    | none => depsSize
  else depsSize

def memberOffset (cache : Cache) (member : Member) (data : Bytes) : Nat :=
  if member.deps = 0 then member.offset
  else member.offset + readers.foldl (cache.skip member.deps data) 0

end Cache

structure Pos where
  sampleType : BitVec 64
  tidPos : Option Nat
  timePos : Option Nat
  idPos : Option Nat
  cpuPos : Option Nat
  callchainPos : Option Nat
  deriving DecidableEq, Repr

def posMask : BitVec 64 := 0x103df

def posSampleType :
    List Evsel → BitVec 64 → Option Evsel → Option (BitVec 64 × Option Evsel)
  | [], sampleType, onlyone => some (sampleType, onlyone)
  | evsel :: rest, sampleType, onlyone =>
    let masked := evsel.attr.sampleType &&& posMask
    if evsel.attr.samplePeriod = 0 then
      posSampleType rest sampleType onlyone
    else if sampleType = 0 then posSampleType rest masked (some evsel)
    else if sampleType ≠ masked then none
    else posSampleType rest sampleType none

def Pos.of (sampleType : BitVec 64) (onlyone : Option Evsel) : Pos :=
  let has := fun (part : Part) => sampleType.getLsbD part.bit
  let pos := 0
  let pos := if has .identifier then pos + 8 else pos
  let pos := if has .ip then pos + 8 else pos
  let tidPos := if has .tid then some pos else none
  let pos := if has .tid then pos + (4 + 4) else pos
  let timePos := if has .time then some pos else none
  let pos := if has .time then pos + 8 else pos
  let pos := if has .addr then pos + 8 else pos
  let idPos := if has .id then some pos else none
  let pos := if has .id then pos + 8 else pos
  let pos := if has .streamId then pos + 8 else pos
  let cpuPos := if has .cpu then some pos else none
  let pos := if has .cpu then pos + (4 + 4) else pos
  let pos := if has .period then pos + 8 else pos
  let callchainPos :=
    if has .read then onlyone.map fun evsel => pos + evsel.readSize
    else some pos
  { sampleType := sampleType, tidPos := tidPos, timePos := timePos
    idPos := idPos, cpuPos := cpuPos, callchainPos := callchainPos }

def perfSamplePosInit (evlist : List Evsel) : Option Pos :=
  (posSampleType evlist 0 none).map fun result => Pos.of result.1 result.2

end PerfProf.Convert
