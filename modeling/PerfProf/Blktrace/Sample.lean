import PerfProf.Data.SearchTree
import PerfProf.Data.Transition

namespace PerfProf.Blktrace

open Data

/-! `blktrace_sample()`: requests are tracked by the sectors they cover. -/

abbrev U64 := BitVec 64

inductive BlockTp where
  | getrq | rqInsert | rqIssue | rqComplete
  deriving DecidableEq, Repr

def BlockTp.index : BlockTp → Nat
  | .getrq => 0
  | .rqInsert => 1
  | .rqIssue => 2
  | .rqComplete => 3

structure RequestTrack where
  tp : BlockTp
  dev : U64
  sector : U64
  nrSector : BitVec 32
  time : U64
  deriving DecidableEq, Repr

def RequestTrack.finish (rq : RequestTrack) : U64 :=
  rq.sector + rq.nrSector.setWidth 64

/-- `request_track_node_cmp()`: ranges that meet are equal. -/
def requestTrackNodeCmp (r rq : RequestTrack) : Ordering :=
  if r.dev < rq.dev then .gt
  else if rq.dev < r.dev then .lt
  else if r.finish ≤ rq.sector then .gt
  else if rq.finish ≤ r.sector then .lt
  else .eq

structure BlockIostat where
  type : U64
  min : U64
  max : U64
  n : U64
  sum : U64
  than : U64
  deriving DecidableEq, Repr

structure BlockLostNode where
  ins : Nat
  reclaim : Bool
  startTime : U64
  endTime : U64
  deriving DecidableEq, Repr

structure Ctx (δ : Type) where
  stats : BlockTp → BlockIostat
  rqTracks : SearchTree δ RequestTrack
  lostList : List BlockLostNode

structure Sample where
  commonType : BitVec 16
  time : U64
  dev : U64
  sector : U64
  nrSector : BitVec 32
  deriving DecidableEq, Repr

inductive Remark where
  | exist | bypassInsert | lost | greaterThan
  deriving DecidableEq, Repr

/-- `iostat_reset()` on one tracepoint. -/
def BlockIostat.reset (type : U64) : BlockIostat :=
  { type := type, min := BitVec.allOnes 64, max := 0, n := 0, sum := 0
    than := 0 }

/-- One more delay; `greaterThan` is zero when there is no threshold. -/
def BlockIostat.add (greaterThan delta : U64) (iostat : BlockIostat) :
    BlockIostat :=
  { iostat with
    min := if delta < iostat.min then delta else iostat.min
    max := if iostat.max < delta then delta else iostat.max
    than :=
      if greaterThan ≠ 0 ∧ greaterThan < delta then iostat.than + 1
      else iostat.than
    n := iostat.n + 1
    sum := iostat.sum + delta }

section Step

variable {δ : Type}

/-- `blktrace_lost()`: the list is ordered by the start of the gaps. -/
def blktraceLost (ins : Nat) (lostStart lostEnd : U64) (ctx : Ctx δ) : Ctx δ :=
  let earlier := fun pos : BlockLostNode => decide (pos.startTime ≤ lostStart)
  { ctx with
    lostList := ctx.lostList.takeWhile earlier ++
      { ins := ins, reclaim := false, startTime := lostStart
        endTime := lostEnd } :: ctx.lostList.dropWhile earlier }

/-- The loop of `blktrace_event_lost()`: the gaps that stay, the tracks, and
whether the event is within a gap. -/
def eventLostLoop (time : U64) :
    List BlockLostNode → SearchTree δ RequestTrack →
      List BlockLostNode × SearchTree δ RequestTrack × Bool
  | [], tracks => ([], tracks, false)
  | lost :: rest, tracks =>
    if time ≤ lost.startTime then (lost :: rest, tracks, false)
    else
      let tracks := if lost.reclaim then tracks else .leaf
      if time < lost.endTime then
        ({ lost with reclaim := true } :: rest, tracks, true)
      else eventLostLoop time rest tracks

def Ctx.pastLost (time : U64) (ctx : Ctx δ) : Ctx δ :=
  let looped := eventLostLoop time ctx.lostList ctx.rqTracks
  { ctx with lostList := looped.1, rqTracks := looped.2.1 }

def Ctx.withinLost (time : U64) (ctx : Ctx δ) : Bool :=
  (eventLostLoop time ctx.lostList ctx.rqTracks).2.2

/-- The macro `IF`, tried for one tracepoint after the other. -/
def Ctx.tpOf (commonType : BitVec 16) (ctx : Ctx δ) : Option BlockTp :=
  [.getrq, .rqInsert, .rqIssue, .rqComplete].find? fun tp =>
    decide (commonType.setWidth 64 = (ctx.stats tp).type)

def Sample.track (tp : BlockTp) (event : Sample) : RequestTrack :=
  { tp := tp, dev := event.dev, sector := event.sector
    nrSector := event.nrSector, time := event.time }

def remark (greaterThan delta : U64) (previous r : RequestTrack) :
    Option Remark :=
  if greaterThan ≠ 0 ∧ greaterThan < delta then some .greaterThan
  else if r.tp = .getrq then some .exist
  else if previous.tp.index ≠ r.tp.index - 1 then
    if r.tp = .rqIssue then some .bypassInsert else some .lost
  else none

def trackRequest (balance : SearchTree.Balance δ RequestTrack)
    (r : RequestTrack) (tracks : SearchTree δ RequestTrack) :
    SearchTree δ RequestTrack :=
  let probe := requestTrackNodeCmp r
  match tracks.find probe with
  | some _ =>
    if r.tp = .rqComplete then
      balance.settle tracks (tracks.unlink probe)
    else
      tracks.update probe fun _ => r
  | none =>
    if r.tp = .rqComplete then tracks
    else balance.settle tracks (tracks.link probe balance.fresh r)

/-- `blktrace_sample()`, with the remark it prints. -/
def blktraceSample (balance : SearchTree.Balance δ RequestTrack)
    (greaterThan : U64) (event : Sample) (ctx : Ctx δ) :
    Ctx δ × Option Remark :=
  let past := ctx.pastLost event.time
  if ctx.withinLost event.time then (past, none)
  else
    match past.tpOf event.commonType with
    | none => (past, none)
    | some tp =>
      let r := event.track tp
      if r.sector = BitVec.allOnes 64 then (past, none)
      else
        let tracks := trackRequest balance r past.rqTracks
        match past.rqTracks.find (requestTrackNodeCmp r) with
        | none => ({ past with rqTracks := tracks }, none)
        | some previous =>
          let delta := r.time - previous.time
          ({ past with
              rqTracks := tracks
              stats := fun other =>
                if other = tp then (past.stats tp).add greaterThan delta
                else past.stats other },
            remark greaterThan delta previous r)

inductive Event where
  | sample (event : Sample)
  | lost (ins : Nat) (lostStart lostEnd : U64)

def step (balance : SearchTree.Balance δ RequestTrack) (greaterThan : U64) :
    Event → Ctx δ → Option (Ctx δ)
  | .sample event, ctx => some (blktraceSample balance greaterThan event ctx).1
  | .lost ins lostStart lostEnd, ctx => some (blktraceLost ins lostStart lostEnd ctx)

def Ctx.init (types : BlockTp → U64) : Ctx δ :=
  { stats := fun tp => .reset (types tp), rqTracks := .leaf, lostList := [] }

end Step

end PerfProf.Blktrace
