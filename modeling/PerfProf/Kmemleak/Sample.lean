import PerfProf.Data.Gaps
import PerfProf.Data.SearchMap

namespace PerfProf.Kmemleak

open Data

/-! `kmemleak_sample()`: every allocation is kept with its event until it is
freed. -/

abbrev U64 := BitVec 64

abbrev Comm := List (BitVec 8)

inductive TpList where
  | alloc | free
  deriving DecidableEq, Repr

/-- The fields of an event that are read, and its other bytes.  `tp` is none
when the event is of neither list. -/
structure PerfEvent where
  tp : Option TpList
  time : Nat
  ptr : Nat
  stack : Bool
  size : BitVec 16
  bytes : List (BitVec 8)
  deriving DecidableEq, Repr

structure PerfEventBackup where
  ptr : Nat
  comm : Comm
  callchain : Bool
  event : PerfEvent
  deriving DecidableEq, Repr

structure KmemleakStat where
  allocNum : U64
  allocMem : U64
  totalAlloc : U64
  totalFree : U64
  deriving DecidableEq, Repr

structure KmemleakLostNode where
  ins : Nat
  reclaim : Bool
  startTime : Nat
  endTime : Nat
  lostId : U64
  lost : U64
  deriving DecidableEq, Repr

structure Ctx (δ : Type) where
  alloc : SearchMap δ PerfEventBackup.ptr
  stat : KmemleakStat
  lostList : List KmemleakLostNode
  collectComm : Bool

/-- `offsetof(struct perf_event_backup, event) + event->header.size`. -/
def PerfEvent.backupSize (event : PerfEvent) : U64 :=
  56 + event.size.setWidth 64

def unknownComm : Comm := [60, 46, 46, 46, 62, 0]

/-- The name that is copied; `found` is what `global_comm_get()` returns. -/
def copyComm (collect : Bool) (found : Option Comm) : Comm :=
  if collect then
    match found with
    | some comm => comm.take 15 ++ [0]
    | none => unknownComm
  else [0]

section Step

variable {δ : Type} (balance : SearchTree.Balance δ PerfEventBackup)

def allocNew (found : Option Comm) (event : PerfEvent) (ctx : Ctx δ) :
    PerfEventBackup × Ctx δ :=
  ({ ptr := event.ptr, comm := copyComm ctx.collectComm found
     callchain := event.stack, event := event },
    { ctx with stat :=
      { ctx.stat with
        allocNum := ctx.stat.allocNum + 1
        allocMem := ctx.stat.allocMem + event.backupSize } })

def allocErase (b : PerfEventBackup) (ctx : Ctx δ) : Ctx δ :=
  { ctx with
    alloc := ctx.alloc.erase balance b.ptr
    stat :=
      { ctx.stat with
        allocNum := ctx.stat.allocNum - 1
        allocMem := ctx.stat.allocMem - b.event.backupSize } }

/-- `alloc_insert()`, with whether the pointer was there already. -/
def allocInsert (b : PerfEventBackup) (ctx : Ctx δ) : Ctx δ × Bool :=
  ({ ctx with alloc := ctx.alloc.insert balance b },
    (ctx.alloc.find b.ptr).isSome)

/-- The allocations are reported and forgotten, if there are any:
`lost_reclaim()`, through `report_kmemleak()`. -/
def lostReclaim (ctx : Ctx δ) : Ctx δ :=
  if ctx.alloc.items.isEmpty then ctx
  else
    { ctx with
      alloc := .empty
      stat := { ctx.stat with allocNum := 0, allocMem := 0 } }

def lostView : GapView KmemleakLostNode Nat where
  start := KmemleakLostNode.startTime
  stop := KmemleakLostNode.endTime
  reclaimed := KmemleakLostNode.reclaim
  reclaim := fun node => { node with reclaim := true }
  start_reclaim := fun _ => rfl
  stop_reclaim := fun _ => rfl

def kmemleakLost (ins lostStart lostEnd : Nat) (lostId lost : U64)
    (ctx : Ctx δ) : Ctx δ :=
  { ctx with
    lostList := lostView.add
      { ins := ins, reclaim := false, startTime := lostStart
        endTime := lostEnd, lostId := lostId, lost := lost } ctx.lostList }

/-- `kmemleak_event_lost()`: the context, and whether it returns -1. -/
def kmemleakEventLost (time : Nat) (ctx : Ctx δ) : Ctx δ × Bool :=
  let passed := lostView.pass (fun _ ctx => lostReclaim ctx) time ctx.lostList ctx
  ({ passed.2.1 with lostList := passed.1 }, passed.2.2)

/-- The part of `kmemleak_sample()` behind the gaps. -/
def sampleUsed (found : Option Comm) (tp : TpList) (event : PerfEvent)
    (ctx : Ctx δ) : Ctx δ :=
  match tp with
  | .alloc =>
    let new := allocNew found event ctx
    let inserted := allocInsert balance new.1 new.2
    let ctx :=
      if inserted.2 then
        match inserted.1.alloc.find event.ptr with
        | some old => (allocInsert balance new.1
            (allocErase balance old inserted.1)).1
        | none => inserted.1
      else inserted.1
    { ctx with stat :=
      { ctx.stat with totalAlloc := ctx.stat.totalAlloc + 1 } }
  | .free =>
    let ctx :=
      match ctx.alloc.find event.ptr with
      | some b => allocErase balance b ctx
      | none => ctx
    { ctx with stat :=
      { ctx.stat with totalFree := ctx.stat.totalFree + 1 } }

def kmemleakSample (found : Option Comm) (event : PerfEvent) (ctx : Ctx δ) :
    Ctx δ :=
  match event.tp with
  | none => ctx
  | some tp =>
    let passed := kmemleakEventLost event.time ctx
    if passed.2 then passed.1
    else sampleUsed balance found tp event passed.1

/-- What reaches the profiler; `found` is the name known of the process. -/
inductive Input where
  | sample (found : Option Comm) (event : PerfEvent)
  | lost (ins lostStart lostEnd : Nat) (lostId lost : U64)

def step : Input → Ctx δ → Option (Ctx δ)
  | .sample found event, ctx => some (kmemleakSample balance found event ctx)
  | .lost ins lostStart lostEnd lostId lost, ctx =>
    some (kmemleakLost ins lostStart lostEnd lostId lost ctx)

def Ctx.init (collectComm : Bool) : Ctx δ :=
  { alloc := .empty, stat := ⟨0, 0, 0, 0⟩, lostList := []
    collectComm := collectComm }

end Step

end PerfProf.Kmemleak
