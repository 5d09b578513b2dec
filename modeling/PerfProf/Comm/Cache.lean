import Mathlib.Data.Prod.Lex
import PerfProf.Data.SearchMap

namespace PerfProf.Comm

open Data

/-! The cache of the names of tasks: a tree of all pids, and one of the tasks
that are gone. -/

abbrev TaskComm := List (BitVec 8)

/-- A node; `exitNode` tells whether it is linked into the tree `exited`. -/
structure PidCommNode where
  updateTime : Nat
  comm : TaskComm
  pid : Int
  flush : Bool
  exitNode : Bool
  deriving DecidableEq, Repr

/-- A node of `exited` is known by its pid. -/
structure Ctx (δ : Type) where
  pidComm : SearchMap δ PidCommNode.pid
  exited : SearchTree δ Int

inductive Kind where
  | taskNewtask | taskRename | schedProcessFree
  deriving DecidableEq, Repr

structure Sample where
  kind : Kind
  time : Nat
  pid : Int
  comm : TaskComm
  deriving DecidableEq, Repr

def Sample.exit (sample : Sample) : Bool :=
  sample.kind == .schedProcessFree

section Step

variable {δ : Type}

def Ctx.updateTime (ctx : Ctx δ) (pid : Int) : Nat :=
  (ctx.pidComm.find pid).elim 0 PidCommNode.updateTime

def Ctx.exitCmp (ctx : Ctx δ) (entry b : Int) : Ordering :=
  if ctx.updateTime entry < ctx.updateTime b then .gt
  else if ctx.updateTime b < ctx.updateTime entry then .lt
  else compare b entry

structure Machine (δ : Type) where
  nodes : SearchTree.Balance δ PidCommNode
  exits : SearchTree.Balance δ Int
  junk : TaskComm

variable (machine : Machine δ)

def findnew (pid : Int) (ctx : Ctx δ) : PidCommNode × Ctx δ :=
  match ctx.pidComm.find pid with
  | some node => (node, ctx)
  | none =>
    let node : PidCommNode :=
      { updateTime := 0, comm := machine.junk, pid := pid, flush := false
        exitNode := false }
    (node, { ctx with pidComm := ctx.pidComm.insert machine.nodes node })

def removeExited (pid : Int) (ctx : Ctx δ) : Ctx δ :=
  { ctx with
    exited := machine.exits.settle ctx.exited
      (ctx.exited.remove fun other => decide (other = pid)) }

def addExited (node : PidCommNode) (ctx : Ctx δ) : Ctx δ :=
  let probe := ctx.exitCmp node.pid
  match ctx.exited.find probe with
  | some _ => ctx
  | none =>
    { pidComm := ctx.pidComm.set { node with exitNode := true }
      exited := machine.exits.settle ctx.exited
        (ctx.exited.link probe machine.exits.fresh node.pid) }

def commUpdate (time : Nat) (exit : Bool) (pid : Int) (comm : TaskComm)
    (ctx : Ctx δ) : Ctx δ :=
  let found := findnew machine pid ctx
  let updated : PidCommNode × Ctx δ :=
    if found.1.updateTime < time then
      let ctx :=
        if found.1.exitNode then removeExited machine pid found.2 else found.2
      let node := { found.1 with
        updateTime := time, comm := comm, flush := false, exitNode := false }
      (node, { ctx with pidComm := ctx.pidComm.set node })
    else found
  if exit then addExited machine updated.1 updated.2 else updated.2

def commSample (sample : Sample) (ctx : Ctx δ) : Ctx δ :=
  match sample.kind with
  | .taskNewtask => commUpdate machine sample.time false sample.pid sample.comm ctx
  | .taskRename => commUpdate machine sample.time false sample.pid sample.comm ctx
  | .schedProcessFree => commUpdate machine sample.time true sample.pid sample.comm ctx

/-- The loop of `comm_gc()`, over the exited nodes from the first one on. -/
def gcLoop (timeBefore : Nat) : List Int → Ctx δ → Ctx δ
  | [], ctx => ctx
  | pid :: rest, ctx =>
    if timeBefore ≤ ctx.updateTime pid then ctx
    else
      let ctx := removeExited machine pid ctx
      gcLoop timeBefore rest { ctx with pidComm := ctx.pidComm.erase machine.nodes pid }

def commGc (timeBefore : Nat) (ctx : Ctx δ) : Ctx δ :=
  gcLoop machine timeBefore ctx.exited.toList ctx

def Ctx.init : Ctx δ := { pidComm := .empty, exited := .leaf }

def deliver (samples : List Sample) : Ctx δ :=
  samples.foldl (fun ctx sample => commSample machine sample ctx) .init

end Step

end PerfProf.Comm
