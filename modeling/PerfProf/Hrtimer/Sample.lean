import PerfProf.Expr.Machine
import PerfProf.Expr.Memory

namespace PerfProf.Expr

/-- `datasize`: the buffer grows by 256 bytes until all declarations fit. -/
def Prog.datasize (prog : Prog) : Nat :=
  256 * max 1 ((prog.datalen + 255) / 256)

/-- `expr_load_data()` of an array of words. -/
def Prog.loadData (prog : Prog) (words : List Word) (mem : Mem) : Option Mem :=
  if prog.datasize < 8 * words.length then none
  else some ((mem.storeWords prog.data words).set
    (prog.data + BitVec.ofNat 64 (8 * words.length)) 0)

/-- `expr_run()`: the value and the memory it leaves, within so many rounds. -/
def Prog.exprRun (prog : Prog) (lib : Library) (fuel : Nat) (mem : Mem) :
    Option (Word × Mem) :=
  match Vm.run prog lib fuel (Vm.start mem) with
  | .ret value vm => some (value, vm.mem)
  | _ => none

end PerfProf.Expr

namespace PerfProf.Hrtimer

open PerfProf.Expr

/-! `hrtimer` with events: an expression over the growth of the counters decides
whether a sample is printed. -/

inductive Evsel where
  | leader
  | tp (idx : Nat)
  | other
  deriving DecidableEq, Repr

/-- The variables of the expression: the events in their order, and `period`. -/
def declares (names : List (List Byte)) : List Declare :=
  names.mapIdx (fun i name => ⟨name, 8 * i, 8, 8, false⟩) ++
    [⟨text "period", 8 * names.length, 8, 8, false⟩]

/-- What `hrtimer_init()` sets up: the events by name, and the expression that
was compiled for them. -/
structure Config where
  names : List (List Byte)
  few : names.length < 2 ^ 31
  idToEvsel : Word → Option Evsel
  verbose : Bool
  alloc : Alloc
  source : List Byte
  prog : Prog
  compiled : ∃ fuel trace, compile fuel alloc true (declares names) source = .ok (prog, trace)

def Config.nrTp (config : Config) : Nat := config.names.length

structure Ctnr where
  value : Word
  id : Word
  deriving DecidableEq, Repr

/-- The counters by instance and event, the leader behind the events, and the
array that is handed to the expression. -/
structure Ctx where
  counters : Nat → Nat → Word
  insCounters : Nat → Word
  mem : Mem

namespace Ctx

def count (ins event : Nat) (value : Word) (ctx : Ctx) : Ctx :=
  { ctx with
    counters := Function.update ctx.counters ins (Function.update (ctx.counters ins) event value)
    insCounters := Function.update ctx.insCounters event (value - ctx.counters ins event) }

end Ctx

section Step

variable (config : Config)

def readCtnr (ins : Nat) (state : Ctx × Nat) (ctnr : Ctnr) : Ctx × Nat :=
  match config.idToEvsel ctnr.id with
  | some .leader => (state.1.count ins config.nrTp ctnr.value, state.2)
  | some (.tp _) => (state.1.count ins state.2 ctnr.value, state.2 + 1)
  | some .other => state
  | none => state

/-- `__analyzer()`: an `int`, made a `u64` by the caller. -/
def analyzer (lib : Library) (fuel : Nat) (ctx : Ctx) : Option (Word × Ctx) :=
  match config.prog.loadData ((List.range (config.nrTp + 1)).map ctx.insCounters) ctx.mem with
  | none => some (0, ctx)
  | some mem =>
    (config.prog.exprRun lib fuel mem).map fun result =>
      ((result.1.setWidth 32).signExtend 64, { ctx with mem := result.2 })

/-- `hrtimer_sample()`, and whether it prints the sample. -/
def hrtimerSample (lib : Library) (fuel ins : Nat) (groups : List Ctnr)
    (ctx : Ctx) : Option (Ctx × Bool) :=
  let ctx := (groups.foldl (readCtnr config ins) (ctx, 0)).1
  if groups.length = config.nrTp + 1 then
    (analyzer config lib fuel ctx).map fun result => (result.2, result.1 == 1#64 || config.verbose)
  else some (ctx, config.verbose)

def Ctx.init (junk : Nat → Word) (mem : Mem) : Ctx :=
  { counters := fun _ _ => 0#64, insCounters := junk, mem := mem }

end Step

end PerfProf.Hrtimer
