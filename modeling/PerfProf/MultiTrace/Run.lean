import PerfProf.MultiTrace.Release

namespace PerfProf.MultiTrace

def Made (cfg : Config) (state : State) (node : Node) : Prop :=
  ∃ sample index tp1 tp, sample.time = state.recentTime ∧
    node = makeNode cfg sample index tp1 tp state.eventHandled

namespace Made

theorem seq (made : Made cfg state node) :
    node.entry.seq = state.eventHandled := by
  obtain ⟨sample, index, tp1, tp, _, rfl⟩ := made
  unfold makeNode
  split <;> rfl

theorem time (made : Made cfg state node) :
    node.entry.time = state.recentTime := by
  obtain ⟨sample, index, tp1, tp, htime, rfl⟩ := made
  rw [← htime]
  unfold makeNode
  split <;> rfl

theorem needRemove (made : Made cfg state node) (hnested : cfg.nested = false) :
    node.needRemove = true := by
  obtain ⟨sample, index, tp1, tp, _, rfl⟩ := made
  simp [makeNode, hnested]

end Made

structure Core where
  backup : List Entry
  acts : List Act
  timelineLost : List LostNode
  perinsLost : Nat → List LostNode
  recentTime : U64
  eventHandled : Nat

def State.core (state : State) : Core where
  backup := state.backup
  acts := state.acts
  timelineLost := state.timelineLost
  perinsLost := state.perinsLost
  recentTime := state.recentTime
  eventHandled := state.eventHandled

section Timeline

variable (node : Node) (unneeded : Bool) (rest : List Node) (state : State)

theorem timelineNodeNew_core :
    (timelineNodeNew node unneeded state).core = state.core := by
  unfold timelineNodeNew
  split
  · cases unneeded <;> rfl
  · rfl

theorem timelineNodeNew_pending :
    (timelineNodeNew node unneeded state).pending =
      if node.entry.tp.untraced then
        state.pending
      else state.pending ++ [node] := by
  unfold timelineNodeNew
  split
  · cases unneeded <;> rfl
  · rfl

theorem popPending_core : (popPending node rest state).core = state.core := by
  unfold popPending
  cases node.needBackup <;> rfl

theorem popPending_pending : (popPending node rest state).pending = rest := by
  unfold popPending
  cases node.needBackup <;> rfl

theorem timelineNodeDelete_core :
    (timelineNodeDelete state).core = state.core := by
  unfold timelineNodeDelete
  split
  · rfl
  · rename_i head tail htimeline
    unfold releaseNode
    split <;> cases head.unneeded <;> rfl

theorem timelineNodeDelete_pending :
    (timelineNodeDelete state).pending.Sublist state.pending := by
  unfold timelineNodeDelete
  split
  · exact List.Sublist.refl _
  · rename_i head tail htimeline
    unfold releaseNode
    split
    · cases head.unneeded <;> exact List.filter_sublist
    · cases head.unneeded <;> exact List.Sublist.refl _

end Timeline

theorem freeUnneeded_preserves (Inv : State → Prop)
    (hremove : ∀ state event,
      event ∈ state.backup → Inv state → Inv (backupRemove cfg event state))
    (hbug : ∀ state, Inv state → Inv state.reportBug)
    (hdelete : ∀ state, Inv state → Inv (timelineNodeDelete state))
    (holds : Inv state) : Inv (timelineFreeUnneeded cfg state) := by
  unfold timelineFreeUnneeded
  generalize unneededBefore cfg state = before
  generalize state.timeline.length = rounds
  induction rounds generalizing state with
  | zero => exact holds
  | succ rounds ih =>
    rw [freeUnneededLoop]
    split
    · exact holds
    · split
      · apply ih
        apply hdelete
        split
        · exact holds
        · split_ifs with member
          · exact hremove state _ (by simpa using member) holds
          · exact hbug state holds
      · exact holds

def State.ticked (sample : Sample) (state : State) : State :=
  if state.recentTime < sample.time then state.setRecentTime sample.time
  else state

abbrev LostGuard := State → U64 → U64 → Prop

structure StepRule (cfg : Config) (allowed : LostGuard)
    (Inv : State → Prop) : Prop where
  nodup : ∀ state, Inv state → state.backup.Nodup
  tick : ∀ state time, Inv state → state.recentTime ≤ time → Inv (state.setRecentTime time)
  skip : ∀ state, Inv state → Inv state.nextSeq
  insert : ∀ state node, Inv state → cfg.needTimeline = true → Made cfg state node →
    Inv (timelineNodeNew node (!node.needBackup || node.entry.tp.untraced) state.nextSeq)
  pending : ∀ state first rest next, Inv state → cfg.needTimeline = true →
    state.pending = first :: rest →
    Processed cfg first (popPending first rest state) next → Inv next
  plain : ∀ state node next, Inv state → cfg.needTimeline = false →
    Made cfg state node → node.entry.tp.untraced = false →
    Processed cfg node state.nextSeq next → Inv next
  free : ∀ state, Inv state → cfg.needTimeline = true → Inv (timelineFreeUnneeded cfg state)
  releases : ∀ state next, Inv state → Releases cfg state next → Inv next
  lost : ∀ state ins startTime endTime, Inv state → allowed state startTime endTime →
    Inv (setLostList cfg ins
      (queueLost cfg ⟨ins, false, startTime, endTime⟩ (lostList cfg ins state))
      state)

namespace StepRule

variable {cfg : Config} {allowed : LostGuard} {Inv : State → Prop}

section

variable (rule : StepRule cfg allowed Inv)

include rule

theorem drain (htimeline : cfg.needTimeline = true) (tail : Entry)
    (rounds : Nat) (needFree : Bool) (holds : Inv state) :
    Inv (drainPending cfg tail rounds needFree state).2 := by
  induction rounds generalizing needFree state with
  | zero => exact holds
  | succ rounds ih =>
    rw [drainPending]
    cases hpending : state.pending with
    | nil =>
      rw [multiTraceFirstPending, hpending]
      exact holds
    | cons first rest =>
      rw [multiTraceFirstPending, hpending]
      dsimp only
      by_cases hdue : first.entry.time ≤ deadline cfg (some tail)
      · rw [if_pos hdue]
        apply ih
        have hsame : (popPending first rest state).backup = state.backup :=
          congrArg Core.backup (popPending_core first rest state)
        have hnodup : (popPending first rest state).backup.Nodup := hsame ▸ rule.nodup state holds
        exact rule.pending state first rest _ holds htimeline hpending
          (processEvent_spec cfg first hnodup)
      · rw [if_neg hdue]
        exact holds

theorem sampleTimeline (htimeline : cfg.needTimeline = true) (holds : Inv state)
    (made : Made cfg state node) :
    Inv (sampleTimeline cfg node state.nextSeq) := by
  unfold MultiTrace.sampleTimeline
  dsimp only
  split
  · exact rule.skip state holds
  · have hdrained := rule.drain htimeline node.entry (timelineNodeNew node (!node.needBackup ||
      node.entry.tp.untraced) state.nextSeq).pending.length (!node.needBackup ||
      node.entry.tp.untraced) (rule.insert state node holds htimeline made)
    split
    · exact rule.free _ hdrained htimeline
    · exact hdrained

theorem sampleFound (index : Nat) (tp1 : Option Tp) (tp : Tp)
    (holds : Inv state) (htime : sample.time = state.recentTime) :
    Inv (sampleFound cfg sample index tp1 tp state) := by
  have made : Made cfg state (makeNode cfg sample index tp1 tp state.eventHandled) :=
    ⟨sample, index, tp1, tp, htime, rfl⟩
  unfold MultiTrace.sampleFound
  dsimp only
  split_ifs with htimeline
  · exact rule.sampleTimeline htimeline holds made
  · unfold samplePlain
    split_ifs with htraced
    · exact rule.skip state holds
    · exact rule.plain state _ _ holds (by simpa using htimeline) made (by simpa using htraced)
        (processEvent_spec cfg _ (rule.nodup state holds))

theorem ticked (holds : Inv state)
    (chronological : state.recentTime ≤ sample.time) :
    Inv (state.ticked sample) ∧
    sample.time = (state.ticked sample).recentTime := by
  unfold State.ticked
  split_ifs with hle
  · exact ⟨rule.tick state sample.time holds chronological, rfl⟩
  · exact ⟨holds, le_antisymm (not_lt.mp hle) chronological⟩

theorem sample {sample : Sample} {state : State} (holds : Inv state)
    (chronological : state.recentTime ≤ sample.time) :
    Inv (multiTraceSample cfg sample state) := by
  obtain ⟨hticked, htime⟩ := rule.ticked holds chronological
  unfold multiTraceSample
  dsimp only
  split
  · exact hticked
  · split
    · exact rule.sampleFound _ _ _ hticked htime
    · split
      · exact rule.releases _ _ hticked (releases_reclaim cfg _ _ _ (rule.nodup _ hticked))
      · exact hticked

theorem lostRecord (ins : Nat) (holds : Inv state)
    (hallowed : allowed state startTime endTime) :
    Inv (multiTraceLost cfg ins startTime endTime state) := by
  unfold multiTraceLost
  split
  · have hreleased := rule.releases _ _ holds
      (releases_lostReclaim cfg ins state.recentTime (rule.nodup _ holds))
    dsimp only
    split_ifs with htimeline
    · exact rule.free _ hreleased htimeline
    · exact hreleased
  · exact rule.lost state ins startTime endTime holds hallowed

end

end StepRule

theorem StepRule.step {Inv : State → Prop} (rule : StepRule cfg allowed Inv)
    (holds : Inv state) (hstep : step cfg action state = some next)
    (hallowed : ∀ ins startTime endTime, action = .lost ins startTime endTime →
      allowed state startTime endTime) :
    Inv next := by
  cases action with
  | sample sample =>
    rw [MultiTrace.step, Option.ite_none_left_eq_some] at hstep
    obtain ⟨hchrono, hnext⟩ := hstep
    cases hnext
    exact rule.sample holds (not_lt.mp hchrono)
  | lost ins startTime endTime =>
    cases hstep
    exact rule.lostRecord ins holds (hallowed ins startTime endTime rfl)

def delayConfig (needTimeline : Bool) (beforeEvent1 afterEvent2 : U64) :
    Config where
  tpList := [[⟨0, false, true, false⟩], [⟨1, false, true, false⟩]]
  impl := .delay
  objectFind _ _ := true
  nested := false
  cycle := false
  needTimeline := needTimeline
  usingOrder := true
  beforeEvent1 := beforeEvent1
  afterEvent2 := afterEvent2
  greaterThan := 0
  lostAffect := .allEvent
  insKey _ := 0
  extraEvsel := none
  callNested := by decide

def sampleAt (evsel : Nat) (time key : U64) : Sample where
  evsel := some evsel
  dev := false
  time := time
  ins := 0
  size := 8
  key := key
  asEvent1 := true
  asEvent2 := true
  wakeupUnnecessary := false
  freePid := 0

end PerfProf.MultiTrace
