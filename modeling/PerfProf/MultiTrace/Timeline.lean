import PerfProf.MultiTrace.Account

namespace PerfProf.MultiTrace

open PerfProf.Data

def isCall : Act → Bool
  | .two _ _ _ | .first _ | .remaining _ _ _ => true
  | .handle _ | .backup _ | .remove _ => false

def calls (acts : List Act) : List Act := acts.filter isCall

def State.view (state : State) : Core :=
  { state.core with acts := calls state.acts }

theorem view_of_core {first second : State} (same : first.core = second.core) :
    first.view = second.view := by
  have hacts : first.acts = second.acts := congrArg Core.acts same
  rw [State.view, State.view, same, hacts]

namespace Core

def call (act : Act) (core : Core) : Core :=
  { core with acts := core.acts ++ [act] }

def remove (event : Entry) (core : Core) : Core :=
  { core with backup := core.backup.erase event }

def new (cfg : Config) (event : Entry) (core : Core) : Core :=
  { core with backup := backupInsert cfg event core.backup }

def nextSeq (core : Core) : Core :=
  { core with eventHandled := core.eventHandled + 1 }

def setRecentTime (time : U64) (core : Core) : Core :=
  { core with recentTime := time }

def callTwo (cfg : Config) (prev : Entry) (node : Node) (core : Core) : Core :=
  if cfg.objectFind prev.tp (some node.entry.tp) && prev.time < node.entry.time then
    core.call (.two prev node.entry core.recentTime)
  else core

def findPrev (node : Node) (core : Core) : Option Entry :=
  core.backup.find? fun prev =>
    prev.key = node.entry.key && (node.entry.tp1.isNone || node.entry.tp1 = some prev.tp)

def pair (cfg : Config) (node : Node) (core : Core) : Core :=
  if node.needFindPrev then
    match core.findPrev node with
    | some prev =>
      let core := core.callTwo cfg prev node
      if node.needRemove then core.remove prev else core
    | none =>
      if cfg.impl.basedOnCall && cfg.objectFind node.entry.tp none then
        core.call (.first node.entry)
      else core
  else core

def keep (cfg : Config) (node : Node) (core : Core) : Core :=
  if node.needBackup then
    match core.backup.find? (backupSame cfg node.entry) with
    | some exist =>
      if node.entry.time < exist.time then core
      else (core.remove exist).new cfg node.entry
    | none => core.new cfg node.entry
  else core

def process (cfg : Config) (node : Node) (core : Core) : Core :=
  (core.pair cfg node).keep cfg node

def callRemaining (cfg : Config) (left : Entry) (reason : RemainingReason)
    (time : U64) (core : Core) : Core :=
  if cfg.objectFind left.tp none then core.call (.remaining left reason time)
  else core

def goesOn (cfg : Config) (left : Entry) (reason : RemainingReason) : Bool :=
  !cfg.objectFind left.tp none || remainingContinue cfg reason

def handBack (cfg : Config) (reason : RemainingReason) (time : U64) :
    List Entry → Core → Core
  | [], core => core
  | left :: rest, core =>
    let core := core.callRemaining cfg left reason time
    if goesOn cfg left reason then handBack cfg reason time rest core else core

def reclaimLoop (cfg : Config) (reason : RemainingReason) (time : U64) :
    List Entry → Bool → Core → Core
  | [], _, core => core
  | left :: rest, true, core =>
    reclaimLoop cfg reason time rest (goesOn cfg left reason)
      ((core.callRemaining cfg left reason time).remove left)
  | left :: rest, false, core => reclaimLoop cfg reason time rest false (core.remove left)

def found (cfg : Config) (sample : Sample) (index : Nat) (tp1 : Option Tp)
    (tp : Tp) (core : Core) : Core :=
  let node := makeNode cfg sample index tp1 tp core.eventHandled
  if node.entry.tp.untraced then core.nextSeq else core.nextSeq.process cfg node

def sample (cfg : Config) (sample : Sample) (core : Core) : Core :=
  let core :=
    if core.recentTime < sample.time then core.setRecentTime sample.time
    else core
  match sample.evsel with
  | none => core
  | some evsel =>
    match findTp evsel 0 cfg.tpList with
    | some (index, tp1, tp) => core.found cfg sample index tp1 tp
    | none =>
      if cfg.extraEvsel = some evsel then
        reclaimLoop cfg .syscalls core.recentTime
          (core.backup.filter (·.key = sample.freePid)) true core
      else core

def flush (cfg : Config) (core : Core) : Core :=
  handBack cfg .exit core.recentTime core.backup core

def NoLoss (core : Core) : Prop :=
  core.timelineLost = [] ∧ ∀ ins, core.perinsLost ins = []

end Core

section Views

variable (cfg : Config) (event : Entry) (state : State)

theorem log_view (act : Act) : (state.log act).view =
    if isCall act then state.view.call act else state.view := by
  unfold State.view State.log Core.call calls
  cases hcall : isCall act with
  | true => simp [State.core, List.filter_append, hcall]
  | false => simp [State.core, List.filter_append, hcall]

@[simp] theorem backupRemove_view :
    (backupRemove cfg event state).view = state.view.remove event := by
  unfold backupRemove perfEventBackupNodeDelete State.view calls
  cases cfg.needTimeline <;> simp [State.core, State.log, State.setBackup, State.setNeeded,
    setUnneeded, State.setTimeline, State.count, Core.remove, isCall]

@[simp] theorem backupNodeNew_view :
    (backupNodeNew cfg event state).view = state.view.new cfg event := by
  unfold backupNodeNew State.view calls
  cases cfg.needTimeline <;>
    simp [State.core, State.log, State.setBackup, State.setNeeded, Core.new, isCall]

end Views

theorem eventLost_of_noLoss (cfg : Config) (node : Node)
    (noLoss : state.view.NoLoss) :
    multiTraceEventLost cfg node state = (node, state) := by
  obtain ⟨hall, hins⟩ := noLoss
  change state.timelineLost = [] at hall
  change ∀ ins, state.perinsLost ins = [] at hins
  have hlist : lostList cfg node.entry.ins state = [] := by
    unfold lostList
    split
    · exact hins _
    · exact hall
  have hset : setLostList cfg node.entry.ins [] state = state := by
    unfold setLostList
    split
    · have hsame : (fun other => if other = node.entry.ins then []
          else state.perinsLost other) = state.perinsLost := by
        funext other
        split
        · exact (hins other).symm
        · rfl
      rw [hsame]
    · rw [← hall]
  rw [multiTraceEventLost, hlist, eventLostLoop]
  exact congrArg (Prod.mk node) hset

theorem callTwo_view (cfg : Config) (prev : Entry) (node : Node)
    (state : State) :
    (callTwo cfg prev node state).view = state.view.callTwo cfg prev node := by
  unfold callTwo Core.callTwo
  split
  · rw [log_view]
    rfl
  · rfl

theorem trytoCallTwo_view (cfg : Config) (node : Node) (state : State) :
    (multiTraceTrytoCallTwo cfg node state).2.view =
      state.view.pair cfg node := by
  have hfind : state.view.findPrev node = multiTraceFindPrev node state := rfl
  unfold multiTraceTrytoCallTwo Core.pair
  rw [hfind]
  split
  · cases multiTraceFindPrev node state with
    | some prev =>
      dsimp only
      split
      · rw [backupRemove_view, callTwo_view]
      · exact callTwo_view cfg prev node state
    | none =>
      dsimp only
      split
      · rw [log_view]
        rfl
      · rfl
  · rfl

theorem trytoBackup_view (cfg : Config) (node : Node) (state : State) :
    (multiTraceTrytoBackup cfg node state).2.view =
      state.view.keep cfg node := by
  have hbackup : state.view.backup = state.backup := rfl
  unfold multiTraceTrytoBackup Core.keep
  rw [hbackup]
  split
  · cases state.backup.find? (backupSame cfg node.entry) with
    | some exist =>
      dsimp only
      split
      · rfl
      · rw [backupNodeNew_view, backupRemove_view]
    | none => exact backupNodeNew_view cfg node.entry state
  · rfl

theorem processEvent_view (cfg : Config) (node : Node)
    (noLoss : state.view.NoLoss) :
    (processEvent cfg node state).2.view = state.view.process cfg node := by
  have hlog : (state.log (.handle node.entry)).view = state.view :=
    log_view state (.handle node.entry)
  rw [processEvent, eventLost_of_noLoss cfg node (by rwa [hlog])]
  dsimp only
  rw [trytoBackup_view, trytoCallTwo_view, hlog, Core.process]

variable {core : Core} {sample : Sample}

theorem Core.pair_noLoss (noLoss : core.NoLoss) :
    (core.pair cfg node).NoLoss := by
  unfold Core.pair Core.callTwo
  repeat' split
  all_goals exact noLoss

theorem Core.keep_noLoss (noLoss : core.NoLoss) :
    (core.keep cfg node).NoLoss := by
  unfold Core.keep
  repeat' split
  all_goals exact noLoss

theorem callRemaining_view (cfg : Config) (left : Entry)
    (reason : RemainingReason) (time : U64) (state : State) :
    (multiTraceCallRemaining cfg left reason time state).1 =
      Core.goesOn cfg left reason ∧
    (multiTraceCallRemaining cfg left reason time state).2.view =
      state.view.callRemaining cfg left reason time := by
  unfold multiTraceCallRemaining Core.goesOn Core.callRemaining
  cases hfound : cfg.objectFind left.tp none with
  | true => exact ⟨rfl, log_view state _⟩
  | false => exact ⟨rfl, rfl⟩

theorem handleRemaining_view (cfg : Config) (reason : RemainingReason)
    (time : U64) (todo : List Entry) (state : State) :
    (handleRemainingLoop cfg reason time todo state).view =
      Core.handBack cfg reason time todo state.view := by
  induction todo generalizing state with
  | nil => rfl
  | cons left rest ih =>
    obtain ⟨hgoes, hview⟩ := callRemaining_view cfg left reason time state
    rw [handleRemainingLoop, Core.handBack, ← hview, ← hgoes]
    cases hcall : multiTraceCallRemaining cfg left reason time state with
    | mk goes next =>
      cases goes with
      | true => exact ih next
      | false => rfl

theorem reclaimLoop_view (cfg : Config) (reason : RemainingReason) (time : U64)
    (todo : List Entry) (going : Bool) (state : State) :
    (reclaimLoop cfg reason time todo going state).view =
      Core.reclaimLoop cfg reason time todo going state.view := by
  induction todo generalizing going state with
  | nil => rfl
  | cons left rest ih =>
    cases going with
    | false => rw [reclaimLoop, Core.reclaimLoop, ih, backupRemove_view]
    | true =>
      obtain ⟨hgoes, hview⟩ := callRemaining_view cfg left reason time state
      rw [reclaimLoop, Core.reclaimLoop, ih, backupRemove_view, hview, hgoes]

theorem Core.reclaimLoop_noLoss (noLoss : core.NoLoss) :
    (Core.reclaimLoop cfg reason time todo going core).NoLoss := by
  induction todo generalizing going core with
  | nil => exact noLoss
  | cons left rest ih =>
    cases going with
    | false => exact ih noLoss
    | true =>
      apply ih
      unfold Core.callRemaining
      split <;> exact noLoss

theorem Core.sample_noLoss (noLoss : core.NoLoss) :
    (core.sample cfg sample).NoLoss := by
  have hticked : (if core.recentTime < sample.time then
      core.setRecentTime sample.time else core).NoLoss := by
    split <;> exact noLoss
  unfold Core.sample
  generalize (if core.recentTime < sample.time then
    core.setRecentTime sample.time else core) = ticked at hticked
  dsimp only
  split
  · exact hticked
  · split
    · unfold Core.found
      dsimp only
      split
      · exact hticked
      · exact Core.keep_noLoss (Core.pair_noLoss hticked)
    · split
      · exact Core.reclaimLoop_noLoss hticked
      · exact hticked

theorem sample_related (Related : State → Core → Prop)
    (hidle : Related (state.ticked sample) (state.ticked sample).view)
    (hfound : ∀ index tp1 tp,
      Related (sampleFound cfg sample index tp1 tp (state.ticked sample))
        ((state.ticked sample).view.found cfg sample index tp1 tp))
    (hreclaim : ∀ key reason time, Related
      (reclaim cfg key reason time (state.ticked sample)) (Core.reclaimLoop cfg
        reason time ((state.ticked sample).backup.filter (·.key = key)) true
        (state.ticked sample).view)) :
    Related (multiTraceSample cfg sample state)
      (state.view.sample cfg sample) := by
  have hticked : (state.ticked sample).view =
      if state.view.recentTime < sample.time then
        state.view.setRecentTime sample.time else state.view := by
    unfold State.ticked
    change _ = if state.recentTime < sample.time then _ else _
    split <;> rfl
  unfold multiTraceSample Core.sample
  rw [← hticked]
  cases sample.evsel with
  | none => exact hidle
  | some evsel =>
    dsimp only
    cases findTp evsel 0 cfg.tpList with
    | some found => exact hfound _ _ _
    | none =>
      dsimp only
      split
      · exact hreclaim _ _ _
      · exact hidle

theorem ticked_noLoss {state : State} (noLoss : state.view.NoLoss) :
    (state.ticked sample).view.NoLoss := by
  unfold State.ticked
  split <;> exact noLoss

theorem plain_sample_view (hplain : cfg.needTimeline = false) (sample : Sample)
    (noLoss : state.view.NoLoss) :
    (multiTraceSample cfg sample state).view =
      state.view.sample cfg sample := by
  refine sample_related (fun state core => state.view = core) rfl ?_
    fun _ _ _ => reclaimLoop_view cfg _ _ _ _ _
  intro index tp1 tp
  have hnoLoss : (state.ticked sample).nextSeq.view.NoLoss := ticked_noLoss noLoss
  unfold sampleFound Core.found
  rw [hplain]
  change (samplePlain cfg _ (state.ticked sample).nextSeq).view = _
  unfold samplePlain
  split
  · rename_i huntraced
    exact (if_pos huntraced).symm
  · rename_i htraced
    refine (processEvent_view cfg _ hnoLoss).trans ?_
    exact (if_neg htraced).symm

section Detail

variable {cfg : Config}

variable {node : Node}

theorem Core.process_of_empty (hcall : cfg.impl.basedOnCall = false)
    (hempty : core.backup = []) (unwanted : node.needBackup = false) :
    core.process cfg node = core := by
  have hprev : core.findPrev node = none := by
    rw [Core.findPrev, hempty]
    rfl
  have hpair : core.pair cfg node = core := by
    unfold Core.pair
    rw [hprev, hcall]
    split <;> rfl
  rw [Core.process, hpair, Core.keep, unwanted]
  rfl

theorem Accounted.backup_of_empty (accounted : Accounted [] now state)
    (hempty : state.timeline = []) : state.backup = [] := by
  have hperm := accounted.parts.1
  rw [hempty] at hperm
  have hnone := List.nil_perm.mp hperm
  exact (List.append_eq_nil_iff.mp (List.append_eq_nil_iff.mp hnone).1).2

theorem le_deadline (hafter : cfg.afterEvent2 = 0) (time : U64) (tail : Entry) :
    time ≤ deadline cfg (some tail) := by
  rw [deadline, if_pos hafter]
  exact Nat.le_of_lt_succ time.isLt

theorem drainPending_single (hafter : cfg.afterEvent2 = 0)
    (hpending : state.pending = [node]) (tail : Entry) (needFree : Bool) :
    (drainPending cfg tail 1 needFree state).2 =
      (processEvent cfg node (popPending node [] state)).2 := by
  rw [drainPending, multiTraceFirstPending, hpending]
  dsimp only
  rw [if_pos (le_deadline hafter _ _)]
  rfl

theorem timelineNodeNew_view (node : Node) (unneeded : Bool) (state : State) :
    (timelineNodeNew node unneeded state).view = state.view :=
  view_of_core (timelineNodeNew_core node unneeded state)

theorem drained_view (hafter : cfg.afterEvent2 = 0) {state : State}
    (nodup : state.backup.Nodup)
    (hpending : state.pending = if node.entry.tp.untraced then [] else [node])
    (noLoss : state.view.NoLoss) (needFree : Bool) :
    (drainPending cfg node.entry state.pending.length needFree
      state).2.pending = [] ∧
    (drainPending cfg node.entry state.pending.length needFree state).2.view =
      if node.entry.tp.untraced then
        state.view
      else state.view.process cfg node := by
  split at hpending
  · rename_i huntraced
    rw [hpending, if_pos huntraced]
    exact ⟨hpending, rfl⟩
  · rename_i htraced
    have hpop := popPending_core node [] state
    have hnodup : (popPending node [] state).backup.Nodup := by
      rwa [show (popPending node [] state).backup = state.backup from
        congrArg Core.backup hpop]
    have hqueue := (queue_frame cfg).processed (processEvent_spec cfg node hnodup)
    have hview := view_of_core hpop
    rw [hpending, if_neg htraced, List.length_singleton, drainPending_single hafter hpending]
    constructor
    · exact (congrArg Prod.fst hqueue).trans (popPending_pending node [] state)
    · rw [processEvent_view cfg node (by rwa [hview]), hview]

theorem sampleTimeline_view (htimeline : cfg.needTimeline = true)
    (hcall : cfg.impl.basedOnCall = false) (hafter : cfg.afterEvent2 = 0)
    {state : State} (holds : Queued cfg (fun _ => Accounted []) state)
    (made : Made cfg state node) (hnone : state.pending = [])
    (noLoss : state.view.NoLoss) :
    (sampleTimeline cfg node state.nextSeq).pending = [] ∧
      (sampleTimeline cfg node state.nextSeq).view =
        if node.entry.tp.untraced then state.view.nextSeq
        else state.view.nextSeq.process cfg node := by
  have rule := (accounted_rule htimeline).stepRule
  unfold sampleTimeline
  generalize hflag : (!node.needBackup || node.entry.tp.untraced) = unneeded
  dsimp only
  split
  · rename_i hskip
    simp only [Bool.and_eq_true, List.isEmpty_iff, decide_eq_true_iff] at hskip
    obtain ⟨⟨⟨hempty, hunneeded⟩, _⟩, _⟩ := hskip
    refine ⟨hnone, ?_⟩
    split_ifs with htraced
    · rfl
    · rw [hunneeded, Bool.or_eq_true, Bool.not_eq_true'] at hflag
      obtain ⟨_, _, _, accounted⟩ := holds
      exact (Core.process_of_empty hcall (accounted.backup_of_empty hempty)
        (hflag.resolve_right htraced)).symm
  · have hinserted := rule.insert state node holds htimeline made
    rw [hflag] at hinserted
    have hdrain := rule.drain htimeline node.entry (timelineNodeNew node unneeded
      state.nextSeq).pending.length unneeded hinserted
    have hpending := timelineNodeNew_pending node unneeded state.nextSeq
    rw [show state.nextSeq.pending = [] from hnone] at hpending
    have hview := timelineNodeNew_view node unneeded state.nextSeq
    obtain ⟨hempty, hdrained⟩ := drained_view hafter
      (rule.nodup _ hinserted) hpending (by rw [hview]; exact noLoss) unneeded
    rw [hview] at hdrained
    split
    · obtain ⟨bound, now, queue, accounted⟩ := hdrain
      obtain ⟨_, hcore, hsame⟩ := accounted.free queue
      exact ⟨hsame.trans hempty, (view_of_core hcore).trans hdrained⟩
    · exact ⟨hempty, hdrained⟩

theorem detail_sample_view (htimeline : cfg.needTimeline = true)
    (hcall : cfg.impl.basedOnCall = false) (hafter : cfg.afterEvent2 = 0)
    (holds : Queued cfg (fun _ => Accounted []) state)
    (chronological : state.recentTime ≤ sample.time)
    (hnone : state.pending = []) (noLoss : state.view.NoLoss) :
    (multiTraceSample cfg sample state).pending = [] ∧
    (multiTraceSample cfg sample state).view =
      state.view.sample cfg sample := by
  have rule := (accounted_rule htimeline).stepRule
  obtain ⟨hticked, htime⟩ := rule.ticked holds chronological
  have hpending : (state.ticked sample).pending = [] := by
    unfold State.ticked
    split <;> exact hnone
  refine sample_related (fun state core => state.pending = [] ∧ state.view = core)
    ⟨hpending, rfl⟩ ?_ ?_
  · intro index tp1 tp
    unfold sampleFound Core.found
    rw [htimeline]
    exact sampleTimeline_view htimeline hcall hafter hticked
      ⟨sample, index, tp1, tp, htime, rfl⟩ hpending (ticked_noLoss noLoss)
  · intro key reason time
    have hqueue := (queue_frame cfg).releases (releases_reclaim cfg key reason time
      (rule.nodup _ hticked))
    exact ⟨(congrArg Prod.fst hqueue).trans hpending, reclaimLoop_view cfg _ _ _ _ _⟩

end Detail

def Config.withTimeline (cfg : Config) (needTimeline : Bool) : Config :=
  { cfg with needTimeline := needTimeline }

section

variable (cfg : Config) (one two : Bool)

theorem goesOn_withTimeline (hreason : reason ≠ .lost) :
    Core.goesOn (cfg.withTimeline one) left reason =
      Core.goesOn (cfg.withTimeline two) left reason := by
  have hnot : decide (reason = .lost) = false := decide_eq_false hreason
  unfold Core.goesOn remainingContinue
  rw [hnot, Bool.false_and, Bool.false_and, Bool.false_and, Bool.false_and]
  rfl

theorem handBack_withTimeline (hreason : reason ≠ .lost) (time : U64)
    (todo : List Entry) (core : Core) :
    Core.handBack (cfg.withTimeline one) reason time todo core =
      Core.handBack (cfg.withTimeline two) reason time todo core := by
  induction todo generalizing core with
  | nil => rfl
  | cons left rest ih =>
    rw [Core.handBack, Core.handBack, goesOn_withTimeline cfg one two hreason, ih]
    rfl

theorem reclaimLoop_withTimeline (hreason : reason ≠ .lost) (time : U64)
    (todo : List Entry) (going : Bool) (core : Core) :
    Core.reclaimLoop (cfg.withTimeline one) reason time todo going core =
      Core.reclaimLoop (cfg.withTimeline two) reason time todo going core := by
  induction todo generalizing going core with
  | nil => rfl
  | cons left rest ih =>
    cases going with
    | false => exact ih _ _
    | true =>
      rw [Core.reclaimLoop, Core.reclaimLoop, ih, goesOn_withTimeline cfg one two hreason]
      rfl

theorem backupInsert_withTimeline (event : Entry) (backup : List Entry) :
    backupInsert (cfg.withTimeline one) event backup =
      backupInsert (cfg.withTimeline two) event backup := by
  induction backup with
  | nil => rfl
  | cons node rest ih =>
    rw [backupInsert, backupInsert, ih]
    rfl

theorem found_withTimeline (sample : Sample) (index : Nat) (tp1 : Option Tp)
    (tp : Tp) (core : Core) :
    core.found (cfg.withTimeline one) sample index tp1 tp =
      core.found (cfg.withTimeline two) sample index tp1 tp := by
  have hnew : Core.new (cfg.withTimeline one) = Core.new (cfg.withTimeline two) := by
    funext event core
    rw [Core.new, Core.new, backupInsert_withTimeline cfg one two]
  unfold Core.found Core.process Core.keep
  rw [hnew]
  rfl

theorem sample_withTimeline (sample : Sample) (core : Core) :
    core.sample (cfg.withTimeline one) sample =
      core.sample (cfg.withTimeline two) sample := by
  unfold Core.sample
  cases sample.evsel with
  | none => rfl
  | some evsel =>
    dsimp only
    rw [reclaimLoop_withTimeline cfg one two (by decide),
      show (cfg.withTimeline one).tpList = (cfg.withTimeline two).tpList from rfl]
    cases findTp evsel 0 (cfg.withTimeline two).tpList with
    | none => rfl
    | some found => exact found_withTimeline cfg one two _ _ _ _ _

end

structure SameCalls (cfg : Config) (plain detail : State) : Prop where
  view : detail.view = plain.view
  noLoss : plain.view.NoLoss
  holds : Queued (cfg.withTimeline true) (fun _ => Accounted []) detail
  pending : detail.pending = []

theorem sampleStep_sameCalls (hnested : cfg.nested = false)
    (hafter : cfg.afterEvent2 = 0) (sample : Sample)
    (same : SameCalls cfg plain detail) :
    Option.Rel (SameCalls cfg)
      (step (cfg.withTimeline false) (.sample sample) plain)
      (step (cfg.withTimeline true) (.sample sample) detail) := by
  obtain ⟨hview, hnoLoss, hholds, hpending⟩ := same
  have hcall : (cfg.withTimeline true).impl.basedOnCall = false := by
    change cfg.impl.basedOnCall = false
    cases hbased : cfg.impl.basedOnCall with
    | false => rfl
    | true => cases hnested.symm.trans (cfg.callNested hbased)
  have htime : detail.recentTime = plain.recentTime := congrArg Core.recentTime hview
  rw [step, step, htime]
  split_ifs with hchrono
  · exact .none
  · have hle : detail.recentTime ≤ sample.time := htime ▸ not_lt.mp hchrono
    have hdetail := detail_sample_view rfl hcall (show (cfg.withTimeline true).afterEvent2 = 0 from
      hafter) hholds hle hpending (hview ▸ hnoLoss)
    refine .some ⟨?_, ?_, ?_, hdetail.1⟩
    · rw [hdetail.2, plain_sample_view rfl sample hnoLoss, hview]
      exact sample_withTimeline cfg true false sample _
    · rw [plain_sample_view rfl sample hnoLoss]
      exact Core.sample_noLoss hnoLoss
    · exact (accounted_rule rfl).stepRule.sample hholds hle

theorem flushPending_core (cfg : Config) (rounds : Nat) (state : State) :
    (flushPending cfg rounds state).core = state.core := by
  induction rounds generalizing state with
  | zero => rfl
  | succ rounds ih =>
    rw [flushPending]
    cases hfirst : multiTraceFirstPending cfg none state with
    | none => rfl
    | some first =>
      refine (ih first.2).trans ?_
      unfold multiTraceFirstPending at hfirst
      split at hfirst
      · cases hfirst
      · obtain ⟨_, hpopped⟩ := Option.ite_none_right_eq_some.mp hfirst
        cases hpopped
        exact popPending_core _ _ _

theorem timelineExit_core (rounds : Nat) (state : State) :
    (timelineExit rounds state).core = state.core := by
  induction rounds generalizing state with
  | zero => rfl
  | succ rounds ih => exact (ih _).trans (timelineNodeDelete_core state)

theorem backupExit_calls (cfg : Config) (state : State) :
    (backupExit cfg state).view.acts = state.view.acts := by
  have hloop : ∀ (todo : List Entry) (state : State),
      (todo.foldl (fun state event => backupRemove cfg event state)
        state).view.acts = state.view.acts := by
    intro todo
    induction todo with
    | nil => exact fun _ => rfl
    | cons event rest ih =>
      intro state
      refine (ih _).trans ?_
      rw [backupRemove_view]
      rfl
  exact hloop state.backup state

theorem flush_calls (cfg : Config) (state : State) :
    calls (multiTraceFlush cfg state).acts = (state.view.flush cfg).acts := by
  unfold multiTraceFlush
  dsimp only
  have hremaining := handleRemaining_view cfg .exit state.recentTime state.backup state
  calc calls (timelineExit _ _).acts
      = (timelineExit _ _).view.acts := rfl
    _ = (backupExit cfg _).view.acts :=
        congrArg Core.acts (view_of_core (timelineExit_core _ _))
    _ = (flushPending cfg _ _).view.acts := backupExit_calls cfg _
    _ = (multiTraceHandleRemaining cfg .exit _ _).view.acts :=
        congrArg Core.acts (view_of_core (flushPending_core cfg _ _))
    _ = (state.view.flush cfg).acts := congrArg Core.acts hremaining

def allCalls (cfg : Config) (samples : List Sample) :
    Option (List Act × List Act) :=
  (run (fun sample => step cfg (.sample sample)) samples State.init).map
    fun last => (calls last.acts, calls (multiTraceFlush cfg last).acts)

/-- A timeline does not change the calls that a sequence of samples leads to. -/
theorem timeline_makes_same_calls {cfg : Config}
    (hnested : cfg.nested = false)
    (hafter : cfg.afterEvent2 = 0)
    (samples : List Sample) :
    allCalls (cfg.withTimeline true) samples =
      allCalls (cfg.withTimeline false) samples := by
  have hinit : SameCalls cfg State.init State.init :=
    ⟨rfl, ⟨rfl, fun _ => rfl⟩, ⟨0, 0, .init _, accounted_init⟩, rfl⟩
  have hrun := run_related (SameCalls cfg) (fun sample plain detail same =>
      sampleStep_sameCalls hnested hafter sample same) samples hinit
  unfold allCalls
  generalize run (fun sample => step (cfg.withTimeline false) (.sample sample))
    samples State.init = plain at hrun ⊢
  generalize run (fun sample => step (cfg.withTimeline true) (.sample sample))
    samples State.init = detail at hrun ⊢
  cases hrun with
  | none => rfl
  | some same =>
    rename_i first second
    have hcalls : calls second.acts = calls first.acts := congrArg Core.acts same.view
    rw [Option.map_some, Option.map_some, hcalls, flush_calls, flush_calls, same.view, Core.flush,
      Core.flush, handBack_withTimeline cfg true false (by decide)]

theorem timeline_makes_same_calls_delay :
    (delayConfig true 0 0).afterEvent2 = 0 ∧
    (allCalls ((delayConfig true 0 0).withTimeline false)
        [sampleAt 0 1 7, sampleAt 1 2 7, sampleAt 0 3 8]).map
      (fun calls => (calls.1.length, calls.2.length)) = some (1, 2) ∧
    allCalls ((delayConfig true 0 0).withTimeline true)
      [sampleAt 0 1 7, sampleAt 1 2 7, sampleAt 0 3 8] =
      allCalls ((delayConfig true 0 0).withTimeline false)
        [sampleAt 0 1 7, sampleAt 1 2 7, sampleAt 0 3 8] :=
  ⟨rfl, by decide +kernel, timeline_makes_same_calls rfl rfl _⟩

end PerfProf.MultiTrace
