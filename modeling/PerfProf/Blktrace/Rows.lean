import Mathlib.Data.BitVec
import PerfProf.Blktrace.Sample

namespace PerfProf.Blktrace

open Data

/-! The rows of `blktrace_interval()`: the statistics are kept with the stage a
request arrives at. -/

structure Passage where
  source : BlockTp
  target : BlockTp
  delta : U64
  deriving DecidableEq, Repr

def Passage.Direct (passage : Passage) : Prop :=
  passage.source.index + 1 = passage.target.index

instance (passage : Passage) : Decidable passage.Direct :=
  inferInstanceAs (Decidable (_ = _))

section Step

variable {δ : Type}

def passageOf (event : Sample) (ctx : Ctx δ) : Option Passage :=
  if ctx.withinLost event.time then none
  else
    match ctx.tpOf event.commonType with
    | none => none
    | some tp =>
      if event.sector = BitVec.allOnes 64 then none
      else
        ((ctx.pastLost event.time).rqTracks.find (requestTrackNodeCmp (event.track tp))).map
          fun previous => ⟨previous.tp, tp, event.time - previous.time⟩

structure Journal (δ : Type) where
  ctx : Ctx δ
  passages : List Passage

inductive Turn where
  | event (event : Event)
  | interval

def blktraceInterval (ctx : Ctx δ) : Ctx δ :=
  { ctx with stats := fun tp => .reset (ctx.stats tp).type }

def Journal.step (balance : SearchTree.Balance δ RequestTrack)
    (greaterThan : U64) : Turn → Journal δ → Option (Journal δ)
  | .event (.sample event), journal =>
    some ⟨(blktraceSample balance greaterThan event journal.ctx).1,
      (passageOf event journal.ctx).toList ++ journal.passages⟩
  | .event (.lost ins lostStart lostEnd), journal =>
    some ⟨blktraceLost ins lostStart lostEnd journal.ctx, journal.passages⟩
  | .interval, journal => some ⟨blktraceInterval journal.ctx, []⟩

structure Shows (deltas : List U64) (iostat : BlockIostat) : Prop where
  n : iostat.n = BitVec.ofNat 64 deltas.length
  sum : iostat.sum = deltas.sum
  min : iostat.min.toNat = deltas.foldr (fun delta least => min delta.toNat least) (2 ^ 64 - 1)
  max : iostat.max.toNat = deltas.foldr (fun delta most => max delta.toNat most) 0

/-- The rows are those of the stages behind the first one. -/
def Journal.RowsRight (journal : Journal δ) : Prop :=
  ∀ tp ≠ .getrq, Shows ((journal.passages.filter fun passage =>
    passage.target = tp ∧ passage.Direct).map Passage.delta) (journal.ctx.stats tp)

def Directly : Turn → Journal δ → Prop
  | .event (.sample event), journal => ∀ passage ∈ passageOf event journal.ctx,
    passage.target ≠ .getrq → passage.Direct
  | _, _ => True

theorem Shows.reset (type : U64) : Shows [] (.reset type) :=
  ⟨rfl, rfl, rfl, rfl⟩

theorem Shows.add (shown : Shows deltas iostat) (greaterThan delta : U64) :
    Shows (delta :: deltas) (iostat.add greaterThan delta) := by
  obtain ⟨hn, hsum, hmin, hmax⟩ := shown
  refine ⟨?_, ?_, ?_, ?_⟩
  · simp [BlockIostat.add, hn, BitVec.ofNat_add]
  · simp [BlockIostat.add, hsum, BitVec.add_comm]
  · rw [List.foldr_cons, ← hmin, BlockIostat.add]
    grind [BitVec.lt_def]
  · rw [List.foldr_cons, ← hmax, BlockIostat.add]
    grind [BitVec.lt_def]

theorem blktraceSample_stats (balance : SearchTree.Balance δ RequestTrack)
    (greaterThan : U64) (event : Sample) (ctx : Ctx δ) (tp : BlockTp) :
    (blktraceSample balance greaterThan event ctx).1.stats tp =
      match passageOf event ctx with
      | none => ctx.stats tp
      | some passage =>
        if tp = passage.target then (ctx.stats tp).add greaterThan passage.delta
        else ctx.stats tp := by
  have hsame : (ctx.pastLost event.time).tpOf event.commonType = ctx.tpOf event.commonType := rfl
  rw [blktraceSample, passageOf, hsame]
  by_cases hwithin : ctx.withinLost event.time = true
  · simp only [hwithin, if_true]
    rfl
  · simp only [hwithin, Bool.false_eq_true, if_false]
    cases htp : ctx.tpOf event.commonType with
    | none => rfl
    | some arrived =>
      by_cases hflush : event.sector = BitVec.allOnes 64
      · simp only [Sample.track, hflush, if_true]
        rfl
      · have hsector : (event.track arrived).sector ≠ BitVec.allOnes 64 := hflush
        cases hfind : (ctx.pastLost event.time).rqTracks.find
            (requestTrackNodeCmp (event.track arrived)) with
        | none =>
          simp only [if_neg hsector, if_neg hflush, hfind, Option.map_none]
          rfl
        | some previous =>
          simp only [if_neg hsector, if_neg hflush, hfind, Option.map_some]
          split_ifs with harrived
          · rw [harrived]
            rfl
          · rfl

/-- After every event and interval the rows show the passages from one stage to
the next, and nothing else, exactly if no request that is tracked skips a stage
or goes back to one. -/
theorem rows_right_iff (balance : SearchTree.Balance δ RequestTrack)
    (greaterThan : U64) (types : BlockTp → U64) (turns : List Turn) :
    (∀ past, past <+: turns →
      ∃ last : Journal δ,
        run (Journal.step balance greaterThan) past ⟨.init types, []⟩ =
          some last ∧
        last.RowsRight) ↔
      ∀ past turn, past ++ [turn] <+: turns →
        ∀ middle : Journal δ,
          run (Journal.step balance greaterThan) past ⟨.init types, []⟩ =
            some middle →
          Directly turn middle := by
  refine run_always_iff Journal.RowsRight Journal.RowsRight Directly (fun _ right => right) ?_ ?_
    fun tp _ => Shows.reset (types tp)
  · intro turn journal right allowed
    match turn with
    | .event (.sample event) =>
      refine ⟨_, rfl, fun tp htp => ?_⟩
      rw [blktraceSample_stats]
      cases hpassage : passageOf event journal.ctx with
      | none => exact right tp htp
      | some passage =>
        by_cases htarget : tp = passage.target
        · have hdirect := allowed passage hpassage (htarget ▸ htp)
          simpa [htarget, hdirect] using (right tp htp).add greaterThan passage.delta
        · simpa [htarget, Ne.symm htarget] using right tp htp
    | .event (.lost ins lostStart lostEnd) => exact ⟨_, rfl, right⟩
    | .interval => exact ⟨_, rfl, fun tp _ => Shows.reset (journal.ctx.stats tp).type⟩
  · intro turn journal next right refused hstep right'
    match turn with
    | .event (.sample event) =>
      cases hstep
      simp only [Directly, not_forall] at refused
      obtain ⟨passage, hpassage, htarget, hskips⟩ := refused
      have hbefore := (right passage.target htarget).n
      have hafter := (right' passage.target htarget).n
      rw [blktraceSample_stats, Option.mem_def.mp hpassage] at hafter
      simp only [if_true, BlockIostat.add, Option.toList_some, List.singleton_append, hskips,
        List.filter_cons, decide_false, and_false, Bool.false_eq_true, if_false,
        ← hbefore] at hafter
      bv_omega
    | .event (.lost ins lostStart lostEnd) => exact refused trivial
    | .interval => exact refused trivial

end Step

def stageTypes (tp : BlockTp) : U64 := BitVec.ofNat 64 tp.index

/-- A request that is issued without having been inserted. -/
def bypassed : List Turn :=
  [.event (.sample ⟨0, 10, 1, 100, 8⟩), .event (.sample ⟨2, 15, 1, 100, 8⟩)]

theorem bypass_counted_as_insert :
    (run (Journal.step (.plain RequestTrack) 0) bypassed
        ⟨.init stageTypes, []⟩).map
      (fun last => (last.passages, (last.ctx.stats .rqIssue).n)) =
      some ([⟨.getrq, .rqIssue, 5⟩], 1) := by
  decide

end PerfProf.Blktrace
