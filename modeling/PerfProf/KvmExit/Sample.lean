import PerfProf.Data.Bytes
import PerfProf.Data.Transition

namespace PerfProf.KvmExit

open Data

/-! `kvm_exit_sample()` on x86.  A record starts with `tid_entry`, `time` and
`cpu_entry`, 24 bytes; `raw.size` and `raw.data` follow. -/

def tid (raw : Bytes) : Nat := field raw 4 4

def time (raw : Bytes) : Nat := field raw 8 8

def rawSize (raw : Bytes) : Nat := field raw 24 4

def commonType (raw : Bytes) : Nat := field raw 28 2

def dataOffset : Nat := 28

/-- `sizeof(struct sample_type_raw)`: 28 bytes and the 48 of the larger
kvm_exit, rounded up to a multiple of 8. -/
def sizeofSample : Nat := 80

/-- `kvm_exit` and `kvm_entry` are the ids of two tracepoints. -/
structure Ctx where
  nrIns : Nat
  kvmExitSize : BitVec 16
  kvmExit : BitVec 16
  kvmEntry : BitVec 16
  perins : Bool
  distinct : kvmExit ≠ kvmEntry

def Ctx.sampleSize (ctx : Ctx) : Nat :=
  (BitVec.ofNat 16 dataOffset + ctx.kvmExitSize).toNat

structure State where
  perinsKvmExit : Bytes
  perinsKvmExitValid : Nat → Bool

def State.init (ctx : Ctx) : State :=
  { perinsKvmExit := List.replicate (ctx.nrIns * ctx.sampleSize) 0
    perinsKvmExitValid := fun _ => false }

def State.setValid (instance_ : Nat) (valid : Bool) (s : State) : State :=
  { s with
    perinsKvmExitValid := fun other =>
      if other = instance_ then valid else s.perinsKvmExitValid other }

structure Latency where
  instance_ : Nat
  key : Nat
  delta : Nat
  inKernel : Bool
  deriving DecidableEq, Repr

structure Reason where
  exitReason : Nat
  isa : Nat
  guestRip : Nat

def kvmIsaVmx : Nat := 1

def startOfKernel : Nat := 0xffff000000000000

/-- `__exit_reason()` on a record that is read with `read`; the inner `none` is
the return value -1.  A record of another type leaves what the caller set. -/
def exitReason (ctx : Ctx) (read : Nat → Nat → Option Nat) :
    Option (Option Reason) := do
  let commonType ← read 28 2
  if commonType = ctx.kvmExit.toNat then
    let size ← read 24 4
    if size = 28 then
      let exitReason ← read (dataOffset + 12) 4
      let guestRip ← read (dataOffset + 16) 8
      return some { exitReason := exitReason, isa := kvmIsaVmx
                    guestRip := guestRip }
    else if size < ctx.kvmExitSize.toNat then return none
    else
      let exitReason ← read (dataOffset + 8) 4
      let isa ← read (dataOffset + 24) 4
      let guestRip ← read (dataOffset + 16) 8
      return some { exitReason := exitReason, isa := isa, guestRip := guestRip }
  else
    return some { exitReason := 2 ^ 32 - 1, isa := kvmIsaVmx, guestRip := 0 }

def slotOffset (instance_ : Nat) : Nat := instance_ * sizeofSample

/-- `memcpy(&ctx->perins_kvm_exit[instance], raw, ctx->sample_size)`. -/
def save (ctx : Ctx) (instance_ : Nat) (raw heap : Bytes) : Option Bytes :=
  store heap (slotOffset instance_) (raw.take ctx.sampleSize)

def latencyOf (ctx : Ctx) (instance_ exitTime : Nat) (raw : Bytes)
    (reason : Reason) : Latency :=
  { instance_ := if ctx.perins then instance_ else 0
    key := reason.isa * 2 ^ 32 + reason.exitReason
    delta := time raw - exitTime
    inKernel := decide (startOfKernel ≤ reason.guestRip) }

/-- `__process_fast()` on the saved kvm_exit; nothing is told when its size is
not known. -/
def processFast (ctx : Ctx) (instance_ exitTime : Nat) (raw heap : Bytes) :
    Option (List Latency) :=
  (exitReason ctx fun offset width =>
    load heap (slotOffset instance_ + offset) width).map fun reason =>
      (reason.map (latencyOf ctx instance_ exitTime raw)).toList

def saveExit (ctx : Ctx) (instance_ : Nat) (raw : Bytes) (s : State) :
    Option (State × List Latency) :=
  match exitReason ctx fun offset width => some (field raw offset width) with
  | some (some _) => do
      let heap ← save ctx instance_ raw s.perinsKvmExit
      return ({ s.setValid instance_ true with perinsKvmExit := heap }, [])
  | _ => some (s, [])

def endExit (ctx : Ctx) (instance_ : Nat) (raw : Bytes) (s : State) :
    Option (State × List Latency) :=
  if s.perinsKvmExitValid instance_ then do
    let exitTid ← load s.perinsKvmExit (slotOffset instance_ + 4) 4
    let exitTime ← load s.perinsKvmExit (slotOffset instance_ + 8) 8
    if tid raw = exitTid ∧ exitTime < time raw then
      let latencies ← processFast ctx instance_ exitTime raw s.perinsKvmExit
      return (s.setValid instance_ false, latencies)
    else return (s, [])
  else some (s, [])

/-- `kvm_exit_sample()`: the next state and the latencies, or `none` if the
table is left. -/
def kvmExitSample (ctx : Ctx) (instance_ : Nat) (raw : Bytes) (s : State) :
    Option (State × List Latency) :=
  if commonType raw = ctx.kvmExit.toNat then saveExit ctx instance_ raw s
  else if commonType raw = ctx.kvmEntry.toNat then endExit ctx instance_ raw s
  else some (s, [])

inductive Event where
  | sample (instance_ : Nat) (raw : Bytes)
  | lost (instance_ : Nat)

/-- `kvm_exit_lost()` without ordering, or a sample. -/
def handle (ctx : Ctx) : Event → State → Option (State × List Latency)
  | .sample instance_ raw, s => kvmExitSample ctx instance_ raw s
  | .lost instance_, s => some (s.setValid instance_ false, [])

def step (ctx : Ctx) (event : Event) (s : State) : Option State :=
  (handle ctx event s).map Prod.fst

/-- The `raw.size` of the kernel's kvm_exit records. -/
structure Kernel (ctx : Ctx) where
  recordSize : Nat
  fields : ctx.kvmExitSize.toNat ≤ recordSize
  bound : 8 + dataOffset + recordSize < 2 ^ 16

def Kernel.Delivers {ctx : Ctx} (kernel : Kernel ctx) : Event → Prop
  | .lost instance_ => instance_ < ctx.nrIns
  | .sample instance_ raw =>
    instance_ < ctx.nrIns ∧ dataOffset + rawSize raw ≤ raw.length ∧
      (commonType raw = ctx.kvmExit.toNat → rawSize raw = kernel.recordSize)

end PerfProf.KvmExit
