import PerfProf.Expr.Machine

namespace PerfProf.Tep

open PerfProf.Expr

/-! Filters that the kernel refuses are compiled and run in userspace. -/

structure Filter where
  prog : Prog
  glo : Word

/-- `prog->datasize`: the capacity grows in steps of 256 bytes. -/
def Filter.datasize (filter : Filter) : Nat :=
  let datalen := filter.prog.datalen
  if datalen = 0 then 0 else max 256 ((datalen + 255) / 256 * 256)

/-- A negative `id` is another device instead of a tracepoint. -/
structure Tp where
  id : Int
  filter : List Byte
  evsel : Option Nat
  ftraceFilter : Option Filter

/-- The fields of a sample that are read, with the time after conversion. -/
structure Sample where
  evsel : Nat
  cpu : BitVec 32
  pid : BitVec 32
  time : Nat
  raw : List Byte

def Tp.isReal (tp : Tp) : Bool := decide (0 ≤ tp.id)

/-- The body of the loop of `tp_list_apply_filter()`; the flag tells that the
filter is run in userspace, and `none` that it cannot be applied. -/
def Tp.applyFilter (supported : Bool) (installs : Tp → Bool)
    (compile : Tp → Option Filter) (tp : Tp) : Option (Tp × Bool) :=
  if tp.isReal && !tp.filter.isEmpty && tp.evsel.isSome then
    if installs tp then some (tp, false)
    else if supported then
      (compile tp).map fun filter => ({ tp with ftraceFilter := some filter }, true)
    else none
  else some (tp, false)

/-- `tp_list_apply_filter()`: the list and `dev->ftrace_filter`. -/
def tpListApplyFilter (supported : Bool) (installs : Tp → Bool)
    (compile : Tp → Option Filter) : List Tp → Option (List Tp × Bool)
  | [] => some ([], false)
  | tp :: rest => do
      let (tp, fallback) ← tp.applyFilter supported installs compile
      let (rest, others) ← tpListApplyFilter supported installs compile rest
      return (tp :: rest, fallback || others)

def fellBack (tps : List Tp) : Bool :=
  tps.any fun tp => tp.isReal && tp.ftraceFilter.isSome

/-- The memory with a sample in `prog->data` and `prog->glo`. -/
def Filter.loaded (filter : Filter) (sample : Sample) (mem : Mem) : Mem :=
  let data : Mem :=
    if sample.raw.isEmpty then mem
    else fun addr =>
      let index := (addr - filter.prog.data).toNat
      if index < sample.raw.length then sample.raw.getD index 0
      else if index = sample.raw.length then 0
      else mem addr
  (data.store filter.glo 4 (sample.cpu.setWidth 64)).store (filter.glo + 4) 4
    (sample.pid.setWidth 64)

/-- `expr_load_global()`: a sample larger than the capacity is not loaded. -/
def exprLoadGlobal (filter : Filter) (sample : Sample) (mem : Mem) :
    Option Mem :=
  if filter.datasize < sample.raw.length then none
  else some (filter.loaded sample mem)

/-- `expr_run()`, if it returns within `fuel` rounds. -/
def exprRun (lib : Library) (fuel : Nat) (filter : Filter) (mem : Mem) :
    Option Word :=
  match Vm.run filter.prog lib fuel (Vm.start mem) with
  | .ret value _ => some value
  | _ => none

def tpProgRun (lib : Library) (fuel : Nat) (filter : Filter) (sample : Sample)
    (mem : Mem) : Option Word :=
  match exprLoadGlobal filter sample mem with
  | none => some (-1)
  | some mem => exprRun lib fuel filter mem

def Sample.commonType (sample : Sample) : Int :=
  ((sample.raw.getD 0 0).toNat + 256 * (sample.raw.getD 1 0).toNat : Nat)

def firstOfType (tps : List Tp) (sample : Sample) : Option Tp :=
  tps.find? fun tp => tp.isReal && decide (tp.id = sample.commonType)

def tpListFtraceFilter (lib : Library) (fuel : Nat) (tps : List Tp)
    (sample : Sample) (mem : Mem) : Option Word :=
  match firstOfType tps sample with
  | none => some (-1)
  | some tp =>
    match tp.ftraceFilter with
    | none => some 1
    | some filter => tpProgRun lib fuel filter sample mem

/-- `timed` is `pos.sample_type & PERF_SAMPLE_TIME`. -/
structure Dev where
  ftraceFilter : Bool
  exitN : Nat
  sampledEvents : Nat
  timed : Bool
  enabledAfter : Nat
  closed : Bool
  deriving DecidableEq

inductive Verdict where
  | sampled | filtered | early | pastLimit
  deriving DecidableEq, Repr

def Dev.count (dev : Dev) : Dev :=
  if dev.exitN = 0 then dev
  else { dev with sampledEvents := dev.sampledEvents + 1 }

def Dev.uncount (dev : Dev) : Dev :=
  { dev with sampledEvents := dev.sampledEvents - 1 }

def Dev.closeAtLimit (dev : Dev) : Dev :=
  if dev.exitN ≠ 0 ∧ dev.exitN ≤ dev.sampledEvents then
    { dev with closed := true }
  else dev

def Dev.within (dev : Dev) : Bool :=
  decide (dev.exitN = 0 ∨ dev.sampledEvents + 1 ≤ dev.exitN)

def Dev.deliver (time : Nat) (dev : Dev) : Verdict × Dev :=
  if dev.timed ∧ time < dev.enabledAfter then (.early, dev.uncount)
  else (.sampled, dev)

/-- `case PERF_RECORD_SAMPLE` of `perf_event_process_record()`, with a profiler
whose `ftrace_filter` is `tp_list_ftrace_filter()` on its list, such as
`top_ftrace_filter()`. -/
def processRecord (lib : Library) (fuel : Nat) (tps : List Tp) (sample : Sample)
    (mem : Mem) (dev : Dev) : Option (Verdict × Dev) :=
  let judged :=
    if dev.within then
      if dev.ftraceFilter then
        (tpListFtraceFilter lib fuel tps sample mem).map fun value =>
          if value.toInt ≤ 0 then (.filtered, dev.count.uncount)
          else dev.count.deliver sample.time
      else some (dev.count.deliver sample.time)
    else some (.pastLimit, dev.count)
  judged.map fun result => (result.1, result.2.closeAtLimit)

end PerfProf.Tep
