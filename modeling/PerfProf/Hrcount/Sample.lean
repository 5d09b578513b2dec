import Mathlib.Data.BitVec
import Mathlib.Data.Prod.Lex
import PerfProf.Data.SearchMap

namespace PerfProf.Hrcount

open Data

/-! The counts of `hrcount`, in rounds of `histSize` positions.  A round is
printed when all instances have left it. -/

def slots : Nat := 2

/-- A node of the distribution; `hist` has `slots * histSize` cells. -/
structure CountNode where
  ins : Nat
  id : Nat
  sum : BitVec 64
  hist : Nat → BitVec 64

def CountNode.key (node : CountNode) : ℕ ×ₗ ℕ := toLex (node.ins, node.id)

def CountNode.add (cell : Nat) (count : BitVec 64) (node : CountNode) :
    CountNode :=
  { node with
    hist := Function.update node.hist cell (node.hist cell + count)
    sum := node.sum + count }

theorem CountNode.add_hist_self (cell : Nat) (count : BitVec 64)
    (node : CountNode) :
    (node.add cell count).hist cell = node.hist cell + count :=
  Function.update_self ..

theorem CountNode.add_hist_of_ne (hother : other ≠ cell) (count : BitVec 64)
    (node : CountNode) :
    (node.add cell count).hist other = node.hist other :=
  Function.update_of_ne hother ..

inductive Evsel (nrTp : Nat) where
  | leader
  | tp (idx : Fin nrTp)
  | other
  deriving DecidableEq, Repr

structure Config where
  nrIns : Nat
  nrTp : Nat
  histSize : Nat
  histSize_pos : 0 < histSize
  period : BitVec 64
  period_pos : 0 < period.toNat
  period_lt : period.toNat < 2 ^ 63
  perins : Bool
  idToEvsel : BitVec 64 → Option (Evsel nrTp)

structure Ctnr where
  value : BitVec 64
  id : BitVec 64
  deriving DecidableEq, Repr

/-- `counters` is by instance and by event, the leader after all others. -/
structure Ctx (δ : Type) where
  counters : Nat → Nat → BitVec 64
  perinsPos : Nat → Nat
  countDist : SearchMap δ CountNode.key
  rounds : Nat
  roundNr : Nat
  needReset : Bool

structure Row where
  ins : Nat
  id : Nat
  cells : List (BitVec 64)
  total : Option (BitVec 64)
  deriving DecidableEq, Repr

/-- What happens in a run: the counter of an event is read at a position, a
round is printed, all is dropped. -/
inductive Record where
  | read (ins id pos : Nat) (value : BitVec 64)
  | printed (packed : Bool) (rows : List Row)
  | reset
  deriving DecidableEq, Repr

section Step

variable {δ : Type} (balance : SearchTree.Balance δ CountNode) (config : Config)

def Config.nodeIns (ins : Nat) : Nat := if config.perins then ins else 0

def Config.freshNode (ins id : Nat) : CountNode :=
  { ins := config.nodeIns ins, id := id, sum := 0, hist := fun _ => 0 }

def countDistInsert (ins id pos : Nat) (count : BitVec 64)
    (dist : SearchMap δ CountNode.key) : SearchMap δ CountNode.key :=
  let fresh := config.freshNode ins id
  let dist := dist.insert balance fresh
  match dist.find fresh.key with
  | none => dist
  | some node => dist.set (node.add (pos % (config.histSize * slots)) count)

def Ctx.head (ctx : Ctx δ) : Nat := (ctx.rounds % slots) * config.histSize

def Ctx.cells (ctx : Ctx δ) (node : CountNode) : List (BitVec 64) :=
  (List.range config.histSize).map fun i => node.hist (ctx.head config + i)

def Ctx.clear (ctx : Ctx δ) (hist : Nat → BitVec 64) (cell : Nat) : BitVec 64 :=
  if ctx.head config ≤ cell ∧ cell < ctx.head config + config.histSize then 0
  else hist cell

/-- `direct_print()`: the line and the node after it. -/
def directPrint (ctx : Ctx δ) (node : CountNode) : Row × CountNode :=
  (⟨node.ins, node.id, ctx.cells config node, some node.sum⟩,
    { node with hist := ctx.clear config node.hist, sum := 0 })

def packedPrint (ctx : Ctx δ) (node : CountNode) : Row × CountNode :=
  (⟨node.ins, node.id, ctx.cells config node, none⟩,
    { node with hist := ctx.clear config node.hist })

def printNode (packed : Bool) (ctx : Ctx δ) (node : CountNode) :
    Row × CountNode :=
  if packed then packedPrint config ctx node else directPrint config ctx node

theorem printNode_key (packed : Bool) (ctx : Ctx δ) (node : CountNode) :
    (printNode config packed ctx node).2.key = node.key := by
  cases packed with
  | true => rfl
  | false => rfl

def Ctx.printPos (ctx : Ctx δ) : Nat := (ctx.rounds + 1) * config.histSize

def Ctx.maxPos (ctx : Ctx δ) : Nat :=
  ((List.range config.nrIns).map ctx.perinsPos).foldl max 0

/-- `__hrcount_interval()`; which display is used depends on the terminal. -/
def interval (packed : Bool) (ctx : Ctx δ) : Ctx δ × List Record :=
  if (List.range config.nrIns).any fun i =>
      decide (ctx.perinsPos i < ctx.printPos config) then (ctx, [])
  else
    let behind := decide (2 ≤ config.nrIns) && decide (2 ≤ config.histSize) &&
      decide (config.histSize / 2 ≤ ctx.maxPos config - ctx.printPos config)
    ({ ctx with
        needReset := ctx.needReset || behind
        countDist := ctx.countDist.mapAll (fun node => (printNode config packed ctx node).2)
          (printNode_key config packed ctx)
        rounds := ctx.rounds + 1 },
      [.printed packed (ctx.countDist.items.map fun node => (printNode config packed ctx node).1)])

def hrcountReset (ctx : Ctx δ) : Ctx δ :=
  { ctx with
    countDist := .empty, perinsPos := fun _ => 0, rounds := 0, roundNr := 0 }

/-- `hrcount_interval()`, at a tick of the timer. -/
def hrcountInterval (packed : Bool) (ctx : Ctx δ) : Ctx δ × List Record :=
  let printed := interval config packed ctx
  if printed.1.needReset then
    (hrcountReset { printed.1 with needReset := false }, printed.2 ++ [.reset])
  else printed

def Ctx.setCounter (ins event : Nat) (value : BitVec 64) (ctx : Ctx δ) :
    Ctx δ :=
  { ctx with
    counters := Function.update ctx.counters ins (Function.update (ctx.counters ins) event value) }

def readCtnr (ins : Nat) (ctnr : Ctnr) (ctx : Ctx δ) : Ctx δ × List Record :=
  match config.idToEvsel ctnr.id with
  | none => (ctx, [])
  | some .leader =>
    let cpuClock := ctnr.value - ctx.counters ins config.nrTp
    let ctx := ctx.setCounter ins config.nrTp ctnr.value
    if config.period * 2#64 ≤ cpuClock then
      ({ ctx with
          perinsPos := Function.update ctx.perinsPos ins
            (ctx.perinsPos ins + ((cpuClock / config.period).toNat - 1)) }, [])
    else (ctx, [])
  | some (.tp idx) =>
    let counter := ctnr.value - ctx.counters ins idx
    let ctx := ctx.setCounter ins idx ctnr.value
    ({ ctx with
        countDist := countDistInsert balance config ins idx
          (ctx.perinsPos ins) counter ctx.countDist },
      [.read ins idx (ctx.perinsPos ins) ctnr.value])
  | some .other => (ctx, [])

def readGroup (ins : Nat) : List Ctnr → Ctx δ → Ctx δ × List Record
  | [], ctx => (ctx, [])
  | ctnr :: rest, ctx =>
    let first := readCtnr balance config ins ctnr ctx
    let later := readGroup ins rest first.1
    (later.1, first.2 ++ later.2)

def hrcountSample (ins : Nat) (groups : List Ctnr) (packed : Bool)
    (ctx : Ctx δ) : Ctx δ × List Record :=
  let printPos := ctx.printPos config
  let counted := readGroup balance config ins groups ctx
  let pos := counted.1.perinsPos ins + 1
  let ctx := { counted.1 with
    perinsPos := Function.update counted.1.perinsPos ins pos }
  if printPos ≤ pos then
    if config.nrIns ≤ ctx.roundNr + 1 then
      let printed := interval config packed { ctx with roundNr := 0 }
      (printed.1, counted.2 ++ printed.2)
    else ({ ctx with roundNr := ctx.roundNr + 1 }, counted.2)
  else (ctx, counted.2)

/-- A sample of an instance or a tick; the terminal decides on the display. -/
inductive Input (config : Config) where
  | sample (ins : Fin config.nrIns) (groups : List Ctnr) (packed : Bool)
  | tick (packed : Bool)

def step (input : Input config) (ctx : Ctx δ) : Ctx δ × List Record :=
  match input with
  | .sample ins groups packed => hrcountSample balance config ins groups packed ctx
  | .tick packed => hrcountInterval config packed ctx

def run : List (Input config) → Ctx δ → Ctx δ × List Record
  | [], ctx => (ctx, [])
  | input :: rest, ctx =>
    let first := step balance config input ctx
    let later := run rest first.1
    (later.1, first.2 ++ later.2)

def Ctx.init : Ctx δ :=
  { counters := fun _ _ => 0#64, perinsPos := fun _ => 0, countDist := .empty
    rounds := 0, roundNr := 0, needReset := false }

end Step

end PerfProf.Hrcount
