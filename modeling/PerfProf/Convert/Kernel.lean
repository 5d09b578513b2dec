import PerfProf.Convert.Members

namespace PerfProf.Convert

open Data

/-! The layout of `PERF_RECORD_SAMPLE`, as `include/uapi/linux/perf_event.h` has
it behind `struct perf_event_header`. -/

structure Counter where
  value : BitVec 64
  id : BitVec 64
  lost : BitVec 64
  deriving DecidableEq, Repr

def u64 (value : BitVec 64) : Bytes := encode 8 value.toNat

/-- What a sample has for its parts; the siblings are the other counters of the
group. -/
structure Content where
  word : Part → BitVec 64
  pid : BitVec 32
  tid : BitVec 32
  cpu : BitVec 32
  res : BitVec 32
  timeEnabled : BitVec 64
  timeRunning : BitVec 64
  counter : Counter
  siblings : List Counter
  ips : List (BitVec 64)
  raw : Bytes
  branches : List (BitVec 64 × BitVec 64 × BitVec 64)
  hwIdx : Option (BitVec 64)
  branchCounters : List (BitVec 64)
  regsUserAbi : BitVec 64
  regsUser : List (BitVec 64)
  stackUser : Bytes
  dynSize : BitVec 64
  regsIntrAbi : BitVec 64
  regsIntr : List (BitVec 64)
  aux : Bytes

namespace Content

variable (attr : Attr) (content : Content)

def counterWords (between : List (BitVec 64)) (counter : Counter) :
    List (BitVec 64) :=
  counter.value :: (between ++ (if attr.formatId then [counter.id] else []) ++
    (if attr.lost then [counter.lost] else []))

def timeWords : List (BitVec 64) :=
  (if attr.timeEnabled then [content.timeEnabled] else []) ++
    (if attr.timeRunning then [content.timeRunning] else [])

/-- `struct read_format`.  A group has the number of its counters and the times
in front, a single counter the times behind its value. -/
def readBytes : Bytes :=
  if attr.group then
    encode 8 (content.siblings.length + 1) ++ (content.timeWords attr ++
      (content.counter :: content.siblings).flatMap (counterWords attr [])).flatMap u64
  else
    (counterWords attr (content.timeWords attr) content.counter).flatMap u64

def regsBytes (abi : BitVec 64) (regs : List (BitVec 64)) : Bytes :=
  u64 abi ++ (if abi = 0 then [] else regs.flatMap u64)

def branchExtra : Nat :=
  (if content.hwIdx = none then 0 else 8) + 8 * content.branchCounters.length

def branchBytes : Bytes :=
  encode 8 content.branches.length ++ ((content.hwIdx.toList.flatMap u64) ++
      (content.branches.flatMap fun branch => u64 branch.1 ++ (u64 branch.2.1 ++ u64 branch.2.2)) ++
      content.branchCounters.flatMap u64)

def stackBytes : Bytes :=
  encode 8 content.stackUser.length ++ (if content.stackUser = [] then []
    else content.stackUser ++ u64 content.dynSize)

def bytes : Part → Bytes
  | .pid => encode 4 content.pid.toNat
  | .tid => encode 4 content.tid.toNat
  | .cpu => encode 4 content.cpu.toNat ++ encode 4 content.res.toNat
  | .read => content.readBytes attr
  | .callchain => encode 8 content.ips.length ++ content.ips.flatMap u64
  | .raw => encode 4 content.raw.length ++ content.raw
  | .branchStack => content.branchBytes
  | .regsUser => regsBytes content.regsUserAbi content.regsUser
  | .stackUser => content.stackBytes
  | .regsIntr => regsBytes content.regsIntrAbi content.regsIntr
  | .aux => encode 8 content.aux.length ++ content.aux
  | part => u64 (content.word part)

end Content

/-- The order of the parts.  The header has the AUX data in front of the sizes
of the pages, while `perf_output_sample()` writes it last. -/
def kernelOrder (auxLast : Bool) : List Part :=
  [.identifier, .ip, .pid, .tid, .time, .addr, .id, .streamId, .cpu, .period,
    .read, .callchain, .raw, .branchStack, .regsUser, .stackUser, .weight,
    .weightStruct, .dataSrc, .transaction, .regsIntr, .physAddr] ++
    if auxLast then [.cgroup, .dataPageSize, .codePageSize, .aux]
    else [.aux, .cgroup, .dataPageSize, .codePageSize]

structure Record (evsel : Evsel) where
  auxLast : Bool
  content : Content
  regsUser : content.regsUser.length = hweight64 evsel.attr.sampleRegsUser
  regsIntr : content.regsIntr.length = hweight64 evsel.attr.sampleRegsIntr
  fits : total (fun part => (content.bytes evsel.attr part).length)
    ((kernelOrder auxLast).filter (Part.sampled evsel.attr.sampleType)) < 65536

namespace Record

variable {evsel : Evsel} (record : Record evsel)

def parts : List Part :=
  (kernelOrder record.auxLast).filter (Part.sampled evsel.attr.sampleType)

def width (part : Part) : Nat := (record.content.bytes evsel.attr part).length

def data : Bytes := record.parts.flatMap (record.content.bytes evsel.attr)

def offset (part : Part) : Nat :=
  total record.width (record.parts.takeWhile fun other => decide (other ≠ part))

end Record

end PerfProf.Convert
