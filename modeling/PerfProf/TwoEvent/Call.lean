import PerfProf.Data.Forest

namespace PerfProf.TwoEvent

open Data

/-! The function call tree of `two-event.c`.  A node is named by its `tp1`. -/

universe u v

variable {α : Type u} [DecidableEq α]

structure Line (α : Type u) where
  depth : Nat
  tp1 : α
  recursive : Bool
  deriving DecidableEq, Repr

/-- `struct call_class` with the fields of its `struct caller` nodes. -/
structure CallClass (α : Type u) where
  nodes : Finset α
  depth : α → Nat
  recursive : α → Bool
  parent : α → Option α
  callees : α → List α
  callerHead : List α
  calls : BitVec 64
  maxDepth : Nat
  printed : List (Line α)

namespace CallClass

def new (nodes : Finset α) : CallClass α :=
  { nodes := nodes
    depth := fun _ => 0
    recursive := fun _ => false
    parent := fun _ => none
    callees := fun _ => []
    callerHead := []
    calls := 0
    maxDepth := 0
    printed := [] }

def linked (cls : CallClass α) (node : α) : Bool :=
  decide (∃ caller ∈ cls.nodes, node ∈ cls.callees caller)

def unlink (node : α) (cls : CallClass α) : CallClass α :=
  { cls with callees := fun caller => (cls.callees caller).erase node }

/-- `list_move_tail(&callee->caller_link, &caller->callee_head)`. -/
def moveTail (callee caller : α) (cls : CallClass α) : CallClass α :=
  let cls := cls.unlink callee
  { cls with
    callees :=
      Function.update cls.callees caller (cls.callees caller ++ [callee]) }

def setParent (node : α) (parent : Option α) (cls : CallClass α) :
    CallClass α :=
  { cls with parent := Function.update cls.parent node parent }

def iterate {σ : Type v} (cls : CallClass α) (iterator : σ → α → σ) :
    σ → α → Option σ :=
  traverse (fun _ => cls.callees) iterator cls.nodes.card

def classIterate {σ : Type v} (cls : CallClass α) (iterator : σ → α → σ)
    (state : σ) : Option σ :=
  cls.callerHead.foldlM (cls.iterate iterator) state

def iteratorPrint (cls : CallClass α) (printed : List (Line α)) (two : α) :
    List (Line α) :=
  printed ++ [{ depth := cls.depth two, tp1 := two, recursive := cls.recursive two }]

def classPrint (cls : CallClass α) : Option (CallClass α) :=
  if cls.calls = 0 then some cls
  else
    (cls.classIterate cls.iteratorPrint cls.printed).map fun printed =>
      { cls with printed := printed, calls := 0 }

/-- `call_update_depth()` up to its loop. -/
def setDepth (cls : CallClass α) (caller : α) : CallClass α :=
  let depth :=
    match cls.parent caller with
    | none => 0
    | some parent => cls.depth parent + 1
  { cls with
    depth := Function.update cls.depth caller depth
    maxDepth := if cls.maxDepth < depth then depth else cls.maxDepth }

def updateDepth (cls : CallClass α) (two : α) : Option (CallClass α) :=
  traverse callees setDepth cls.nodes.card cls two

/-- The loop of `call_recursive()`. -/
def climb (cls : CallClass α) (callee : α) : Nat → Option α → Option Bool
  | _, none => some false
  | 0, some _ => none
  | fuel + 1, some caller =>
    if caller = callee then some true
    else cls.climb callee fuel (cls.parent caller)

def callRecursive (cls : CallClass α) (caller callee : α) : Option Bool :=
  cls.climb callee cls.nodes.card (some caller)

def detach (caller : α) (cls : CallClass α) : Option (CallClass α) :=
  if cls.linked caller then
    cls.classPrint.bind fun cls => ((cls.unlink caller).setParent caller none).updateDepth caller
  else some cls

/-- `two(A, NULL)`: the caller becomes a root. -/
def linkRoot (caller : α) (cls : CallClass α) : Option (CallClass α) :=
  (cls.detach caller).map fun cls =>
    let cls :=
      if caller ∈ cls.callerHead then cls
      else { cls with callerHead := cls.callerHead ++ [caller] }
    { cls with calls := cls.calls + 1 }

def adopt (caller callee : α) (cls : CallClass α) : Option (CallClass α) :=
  let print :=
    if cls.parent callee ≠ none ∨ callee ∈ cls.callerHead then cls.classPrint
    else some cls
  print.bind fun cls =>
    let cls := cls.moveTail callee caller
    let cls := { cls with callerHead := cls.callerHead.erase callee }
    (cls.setParent callee (some caller)).updateDepth callee

/-- `two(A, B)`: the caller calls the callee. -/
def linkCallee (caller callee : α) (cls : CallClass α) : Option (CallClass α) :=
  (cls.callRecursive caller callee).bind fun recursive =>
    let cls :=
      { cls with recursive := Function.update cls.recursive caller recursive }
    let linked :=
      if cls.parent callee ≠ some caller ∧ recursive = false then
        cls.adopt caller callee
      else some cls
    linked.map fun cls => { cls with calls := cls.calls + 1 }

/-- `call_link()`; a `tp` without node is not found. -/
def link (tp1 : α) (tp2 : Option α) (cls : CallClass α) :
    Option (CallClass α × Bool) :=
  if tp1 ∈ cls.nodes then
    match tp2 with
    | none => (cls.linkRoot tp1).map fun cls => (cls, true)
    | some tp2 =>
      if tp2 ∈ cls.nodes then
        (cls.linkCallee tp1 tp2).map fun cls => (cls, true)
      else some (cls, false)
  else some (cls, false)

end CallClass

/-- What the class is called for: `call_two()` and `call_print_header()`. -/
inductive Call (α : Type u) where
  | two (tp1 : α) (tp2 : Option α)
  | printHeader
  deriving DecidableEq, Repr

def CallClass.step (call : Call α) (cls : CallClass α) : Option (CallClass α) :=
  match call with
  | .two tp1 tp2 => (cls.link tp1 tp2).map Prod.fst
  | .printHeader => cls.classPrint

end PerfProf.TwoEvent
