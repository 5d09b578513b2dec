import PerfProf.MultiTrace.Timeline

namespace PerfProf.MultiTrace

open PerfProf.Data

/-! Pairing as a function of the sequence of events, and when the timeline gets
to process them. -/

def Act.pair? : Act → Option (Entry × Entry)
  | .two prev cur _ => some (prev, cur)
  | _ => none

def pairs (acts : List Act) : List (Entry × Entry) := acts.filterMap Act.pair?

@[simp] theorem pairs_append (first second : List Act) :
    pairs (first ++ second) = pairs first ++ pairs second := by
  simp [pairs]

theorem pairs_calls (acts : List Act) : pairs (calls acts) = pairs acts := by
  unfold pairs calls
  rw [List.filterMap_filter]
  congr
  funext act
  cases act <;> rfl

@[ext] structure Sketch where
  backup : List Entry
  pairs : List (Entry × Entry)
  deriving DecidableEq, Repr

def Core.sketch (core : Core) : Sketch :=
  ⟨core.backup, MultiTrace.pairs core.acts⟩

def State.sketch (state : State) : Sketch :=
  ⟨state.backup, MultiTrace.pairs state.acts⟩

theorem view_sketch (state : State) : state.view.sketch = state.sketch :=
  Sketch.ext rfl (pairs_calls state.acts)

namespace Sketch

def init : Sketch := ⟨[], []⟩

def findPrev (node : Node) (sketch : Sketch) : Option Entry :=
  sketch.backup.find? fun prev =>
    prev.key = node.entry.key && (node.entry.tp1.isNone || node.entry.tp1 = some prev.tp)

def callTwo (cfg : Config) (prev : Entry) (node : Node) (sketch : Sketch) :
    Sketch :=
  if cfg.objectFind prev.tp (some node.entry.tp) && prev.time < node.entry.time then
    { sketch with pairs := sketch.pairs ++ [(prev, node.entry)] }
  else sketch

def remove (event : Entry) (sketch : Sketch) : Sketch :=
  { sketch with backup := sketch.backup.erase event }

def new (cfg : Config) (event : Entry) (sketch : Sketch) : Sketch :=
  { sketch with backup := backupInsert cfg event sketch.backup }

def pair (cfg : Config) (node : Node) (sketch : Sketch) : Sketch :=
  if node.needFindPrev then
    match sketch.findPrev node with
    | some prev =>
      let sketch := sketch.callTwo cfg prev node
      if node.needRemove then sketch.remove prev else sketch
    | none => sketch
  else sketch

def keep (cfg : Config) (node : Node) (sketch : Sketch) : Sketch :=
  if node.needBackup then
    match sketch.backup.find? (backupSame cfg node.entry) with
    | some exist =>
      if node.entry.time < exist.time then sketch
      else (sketch.remove exist).new cfg node.entry
    | none => sketch.new cfg node.entry
  else sketch

def process (cfg : Config) (sketch : Sketch) (node : Node) : Sketch :=
  (sketch.pair cfg node).keep cfg node

def processAll (cfg : Config) (nodes : List Node) : Sketch :=
  nodes.foldl (process cfg) init

theorem processAll_append (cfg : Config) (first second : List Node) :
    processAll cfg (first ++ second) =
      second.foldl (process cfg) (processAll cfg first) :=
  List.foldl_append

end Sketch

section Core

variable (cfg : Config) (node : Node) (core : Core)

theorem Core.callTwo_sketch (prev : Entry) :
    (core.callTwo cfg prev node).sketch =
      core.sketch.callTwo cfg prev node := by
  unfold Core.callTwo Sketch.callTwo
  split
  · exact Sketch.ext rfl (pairs_append _ _)
  · rfl

theorem Core.pair_sketch :
    (core.pair cfg node).sketch = core.sketch.pair cfg node := by
  have hfind : core.sketch.findPrev node = core.findPrev node := rfl
  unfold Core.pair Sketch.pair
  rw [hfind]
  split
  · cases core.findPrev node with
    | some prev =>
      dsimp only
      split
      · exact congrArg (Sketch.remove prev) (core.callTwo_sketch cfg node prev)
      · exact core.callTwo_sketch cfg node prev
    | none =>
      dsimp only
      split
      · refine Sketch.ext rfl ((pairs_append _ _).trans ?_)
        exact List.append_nil _
      · rfl
  · rfl

theorem Core.keep_sketch :
    (core.keep cfg node).sketch = core.sketch.keep cfg node := by
  have hbackup : core.sketch.backup = core.backup := rfl
  unfold Core.keep Sketch.keep
  rw [hbackup]
  split
  · cases core.backup.find? (backupSame cfg node.entry) with
    | some exist =>
      dsimp only
      split
      · rfl
      · rfl
    | none => rfl
  · rfl

theorem Core.process_sketch :
    (core.process cfg node).sketch = core.sketch.process cfg node := by
  rw [Core.process, Core.keep_sketch, Core.pair_sketch, Sketch.process]

end Core

theorem Sketch.process_of_empty (cfg : Config) {node : Node} {sketch : Sketch}
    (hempty : sketch.backup = []) (unwanted : node.needBackup = false) :
    sketch.process cfg node = sketch := by
  have hprev : sketch.findPrev node = none := by
    rw [Sketch.findPrev, hempty]
    rfl
  have hpair : sketch.pair cfg node = sketch := by
    unfold Sketch.pair
    rw [hprev]
    split <;> rfl
  rw [Sketch.process, hpair, Sketch.keep, unwanted]
  rfl

def lookup (cfg : Config) (sample : Sample) : Option (Nat × Option Tp × Tp) :=
  sample.evsel.bind fun evsel => findTp evsel 0 cfg.tpList

/-- The events made from the samples, numbered from `seq`. -/
def receivedFrom (cfg : Config) : Nat → List Sample → List Node
  | _, [] => []
  | seq, sample :: rest =>
    match lookup cfg sample with
    | some (index, tp1, tp) =>
      makeNode cfg sample index tp1 tp seq :: receivedFrom cfg (seq + 1) rest
    | none => receivedFrom cfg seq rest

theorem receivedFrom_cons (cfg : Config) (seq : Nat) (sample : Sample)
    (rest : List Sample) :
    receivedFrom cfg seq (sample :: rest) =
      receivedFrom cfg seq [sample] ++
        receivedFrom cfg (seq + (receivedFrom cfg seq [sample]).length)
          rest := by
  cases hfound : lookup cfg sample with
  | none => simp [receivedFrom, hfound]
  | some found => simp [receivedFrom, hfound]

def received (cfg : Config) (samples : List Sample) : List Node :=
  receivedFrom cfg 0 samples

def traced (nodes : List Node) : List Node :=
  nodes.filter fun node => !node.entry.tp.untraced

@[simp] theorem traced_append (first second : List Node) :
    traced (first ++ second) = traced first ++ traced second := by
  simp [traced]

def isDue (cfg : Config) (nodes : List Node) (node : Node) : Bool :=
  !cfg.needTimeline || nodes.any fun tail =>
    node.entry.seq ≤ tail.entry.seq && node.entry.time ≤ deadline cfg (some tail.entry)

section Process

variable {cfg : Config} {state : State}

theorem processEvent_sketch (node : Node) (noLoss : state.view.NoLoss) :
    (processEvent cfg node state).2.sketch = state.sketch.process cfg node := by
  rw [← view_sketch, ← view_sketch, processEvent_view cfg node noLoss, Core.process_sketch]

theorem processEvent_noLoss (node : Node) (noLoss : state.view.NoLoss) :
    (processEvent cfg node state).2.view.NoLoss := by
  rw [processEvent_view cfg node noLoss]
  exact Core.keep_noLoss (Core.pair_noLoss noLoss)

theorem processEvent_queue (node : Node) (noLoss : state.view.NoLoss) :
    (processEvent cfg node state).2.queue = state.queue := by
  have hlog : (state.log (.handle node.entry)).view = state.view :=
    log_view state (.handle node.entry)
  rw [processEvent, eventLost_of_noLoss cfg node (by rwa [hlog])]
  dsimp only
  exact ((queue_frame cfg).backupOutcome (trytoBackup_spec cfg node _)).trans (((queue_frame
    cfg).twoOutcome (trytoCallTwo_spec cfg node _)).trans ((queue_frame cfg).log _ _))

theorem popPending_sketch (first : Node) (rest : List Node) (state : State) :
    (popPending first rest state).sketch = state.sketch := by
  rw [← view_sketch, ← view_sketch, view_of_core (popPending_core first rest state)]

structure Drained (cfg : Config) (tail : Entry) (state next : State)
    (taken rest : List Node) : Prop where
  pending : state.pending = taken ++ rest
  due : ∀ node ∈ taken, node.entry.time ≤ deadline cfg (some tail)
  left : ∀ node, rest.head? = some node → deadline cfg (some tail) < node.entry.time
  after : next.pending = rest
  sketch : next.sketch = taken.foldl (Sketch.process cfg) state.sketch
  noLoss : next.view.NoLoss
  handled : next.eventHandled = state.eventHandled
  recent : next.recentTime = state.recentTime

theorem drainPending_drained (tail : Entry) (rounds : Nat) (needFree : Bool)
    (noLoss : state.view.NoLoss) (enough : state.pending.length ≤ rounds) :
    ∃ taken rest, Drained cfg tail state
      (drainPending cfg tail rounds needFree state).2 taken rest := by
  induction rounds generalizing needFree state with
  | zero =>
    have hnone := List.length_eq_zero_iff.mp (Nat.le_zero.mp enough)
    exact ⟨[], [], by rw [hnone]; rfl, by simp, by simp, hnone, rfl, noLoss, rfl, rfl⟩
  | succ rounds ih =>
    rw [drainPending]
    cases hpending : state.pending with
    | nil =>
      rw [multiTraceFirstPending, hpending]
      exact ⟨[], [], hpending, by simp, by simp, hpending, rfl, noLoss, rfl, rfl⟩
    | cons first rest =>
      rw [multiTraceFirstPending, hpending]
      dsimp only
      by_cases hdue : first.entry.time ≤ deadline cfg (some tail)
      · rw [if_pos hdue]
        dsimp only
        have hpop := popPending_core first rest state
        have hclear : (popPending first rest state).view.NoLoss := by
          rw [view_of_core hpop]
          exact noLoss
        have hqueue := @processEvent_queue cfg _ first hclear
        have hafter : (processEvent cfg first (popPending first rest state)).2.pending = rest :=
            (congrArg Prod.fst hqueue).trans (popPending_pending first rest state)
        obtain ⟨taken, left, drained⟩ := ih (needFree || (processEvent cfg first
            (popPending first rest state)).1)
          (processEvent_noLoss first hclear) (by
            rw [hafter]
            rw [hpending, List.length_cons] at enough
            omega)
        refine ⟨first :: taken, left, ?_, ?_, drained.left, drained.after,
          ?_, drained.noLoss, ?_, ?_⟩
        · rw [hpending, List.cons_append, ← drained.pending, hafter]
        · intro node member
          rcases List.mem_cons.mp member with rfl | member
          · exact hdue
          · exact drained.due node member
        · rw [drained.sketch, processEvent_sketch first hclear, popPending_sketch, List.foldl_cons]
        · exact drained.handled.trans ((congrArg (·.2.1) hqueue).trans
            (congrArg Core.eventHandled hpop))
        · exact drained.recent.trans ((congrArg (·.2.2) hqueue).trans
            (congrArg Core.recentTime hpop))
      · rw [if_neg hdue]
        refine ⟨[], first :: rest, hpending, by simp, ?_, hpending, rfl, noLoss, rfl, rfl⟩
        intro node hnode
        cases hnode
        exact not_le.mp hdue

end Process

theorem isDue_snoc :
    isDue cfg (nodes ++ [tail]) node = true ↔
      isDue cfg nodes node = true ∨
      (node.entry.seq ≤ tail.entry.seq ∧
        node.entry.time ≤ deadline cfg (some tail.entry)) := by
  simp [isDue, or_assoc]

theorem isDue_iff :
    isDue cfg nodes node = true ↔
      cfg.needTimeline = false ∨
      ∃ tail ∈ nodes, node.entry.seq ≤ tail.entry.seq ∧
        node.entry.time ≤ deadline cfg (some tail.entry) := by
  simp [isDue]

theorem isDue_of_prompt (hafter : cfg.afterEvent2 = 0) (member : node ∈ nodes) :
    isDue cfg nodes node = true :=
  isDue_iff.mpr (.inr ⟨node, member, le_rfl, le_deadline hafter _ _⟩)

theorem isDue_plain (hplain : cfg.needTimeline = false) (nodes : List Node)
    (node : Node) : isDue cfg nodes node = true := by
  simp [isDue, hplain]

structure Deferred (cfg : Config) (nodes : List Node) (state : State) :
    Prop where
  counted : state.eventHandled = nodes.length
  numbered : ∀ node ∈ nodes, node.entry.seq < state.eventHandled
  recent : ∀ node ∈ nodes, node.entry.time ≤ state.recentTime
  sorted : nodes.Pairwise fun first second =>
    first.entry.seq < second.entry.seq ∧ first.entry.time ≤ second.entry.time
  noLoss : state.view.NoLoss
  split : ∃ done, traced nodes = done ++ state.pending ∧
    (∀ node ∈ done, isDue cfg nodes node = true) ∧
    (∀ node ∈ state.pending, isDue cfg nodes node = false) ∧
    state.sketch = Sketch.processAll cfg done
  accounted : cfg.needTimeline = true → Queued cfg (fun _ => Accounted []) state

namespace Deferred

variable {cfg : Config} {nodes : List Node} {state : State}

theorem init (cfg : Config) : Deferred cfg [] State.init where
  counted := rfl
  numbered := by simp
  recent := by simp
  sorted := List.Pairwise.nil
  noLoss := ⟨rfl, fun _ => rfl⟩
  split := ⟨[], rfl, by simp, by simp [State.init], rfl⟩
  accounted := fun _ => ⟨0, 0, .init cfg, accounted_init⟩

section

variable (deferred : Deferred cfg nodes state)

include deferred

theorem ticked (chronological : state.recentTime ≤ sample.time) :
    Deferred cfg nodes (state.ticked sample) ∧
    sample.time = (state.ticked sample).recentTime := by
  unfold State.ticked
  split_ifs with hle
  · refine ⟨⟨deferred.counted, deferred.numbered, ?_, deferred.sorted,
      deferred.noLoss, deferred.split, ?_⟩, rfl⟩
    · intro node member
      exact (deferred.recent node member).trans chronological
    · intro htimeline
      exact (accounted_rule htimeline).stepRule.tick state sample.time
        (deferred.accounted htimeline) chronological
  · exact ⟨deferred, le_antisymm (not_lt.mp hle) chronological⟩

theorem snoc {node : Node} {next : State} (made : Made cfg state node)
    (hhandled : next.eventHandled = state.eventHandled + 1)
    (hrecent : next.recentTime = state.recentTime) :
    next.eventHandled = (nodes ++ [node]).length ∧
    (∀ other ∈ nodes ++ [node], other.entry.seq < next.eventHandled) ∧
    (∀ other ∈ nodes ++ [node], other.entry.time ≤ next.recentTime) ∧
    (nodes ++ [node]).Pairwise fun first second =>
      first.entry.seq < second.entry.seq ∧
      first.entry.time ≤ second.entry.time := by
  refine ⟨?_, ?_, ?_, ?_⟩
  · rw [hhandled, deferred.counted, List.length_append, List.length_singleton]
  · intro other member
    rw [hhandled]
    rcases List.mem_append.mp member with member | member
    · exact Nat.lt_succ_of_lt (deferred.numbered other member)
    · rw [List.mem_singleton.mp member, made.seq]
      exact Nat.lt_succ_self _
  · intro other member
    rw [hrecent]
    rcases List.mem_append.mp member with member | member
    · exact deferred.recent other member
    · rw [List.mem_singleton.mp member, made.time]
  · rw [List.pairwise_append]
    refine ⟨deferred.sorted, List.pairwise_singleton _ _, ?_⟩
    intro first hfirst second hsecond
    rw [List.mem_singleton.mp hsecond, made.seq, made.time]
    exact ⟨deferred.numbered first hfirst, deferred.recent first hfirst⟩

theorem pending_mem (member : node ∈ state.pending) : node ∈ nodes := by
  obtain ⟨done, htraced, _⟩ := deferred.split
  have hinside : node ∈ traced nodes := by
    rw [htraced]
    exact List.mem_append_right _ member
  exact List.mem_of_mem_filter hinside

theorem pending_of_due (hdue : ∀ node ∈ nodes, isDue cfg nodes node = true) :
    state.pending = [] := by
  obtain ⟨_, _, _, hpending, _⟩ := deferred.split
  apply List.eq_nil_iff_forall_not_mem.mpr
  intro node member
  have hlate := hpending node member
  rw [hdue node (deferred.pending_mem member)] at hlate
  cases hlate

theorem fresh (htimeline : cfg.needTimeline = true)
    (made : Made cfg state node) : isDue cfg nodes node = false := by
  rw [Bool.eq_false_iff, Ne, isDue_iff, htimeline]
  rintro (hplain | ⟨tail, member, hseq, -⟩)
  · cases hplain
  · rw [made.seq] at hseq
    exact absurd (deferred.numbered tail member) (Nat.not_lt_of_le hseq)

theorem plain (hplain : cfg.needTimeline = false) (made : Made cfg state node) :
    Deferred cfg (nodes ++ [node]) (samplePlain cfg node state.nextSeq) := by
  obtain ⟨done, htraced, hdone, hpending, hsketch⟩ := deferred.split
  have hnone := deferred.pending_of_due fun _ _ => isDue_plain hplain _ _
  unfold samplePlain
  split
  · rename_i huntraced
    have hhandled : state.nextSeq.eventHandled = state.eventHandled + 1 := rfl
    obtain ⟨hcounted, hnumbered, hrecent, hsorted⟩ := deferred.snoc made hhandled rfl
    refine ⟨hcounted, hnumbered, hrecent, hsorted, deferred.noLoss,
      ⟨done, ?_, fun _ _ => isDue_plain hplain _ _, ?_, hsketch⟩, ?_⟩
    · rw [traced_append, htraced]
      simp [traced, huntraced, State.nextSeq]
    · rw [show state.nextSeq.pending = [] from hnone]
      simp
    · intro htimeline
      cases hplain.symm.trans htimeline
  · rename_i htraced'
    have hclear : state.nextSeq.view.NoLoss := deferred.noLoss
    have hqueue := @processEvent_queue cfg _ node hclear
    have hafter : (processEvent cfg node state.nextSeq).2.pending = [] :=
      (congrArg Prod.fst hqueue).trans hnone
    obtain ⟨hcounted, hnumbered, hrecent, hsorted⟩ :=
      deferred.snoc made (congrArg (·.2.1) hqueue) (congrArg (·.2.2) hqueue)
    refine ⟨hcounted, hnumbered, hrecent, hsorted, processEvent_noLoss node hclear,
      ⟨done ++ [node], ?_, fun _ _ => isDue_plain hplain _ _, ?_, ?_⟩, ?_⟩
    · rw [traced_append, htraced, hnone, hafter, List.append_nil, List.append_nil]
      simp [traced, htraced']
    · rw [hafter]
      simp
    · rw [processEvent_sketch node hclear, Sketch.processAll_append]
      exact congrArg (Sketch.process cfg · node) hsketch
    · intro htimeline
      cases hplain.symm.trans htimeline

end

theorem left_late (drained : Drained cfg tail state next taken rest)
    (sorted : state.pending.Pairwise fun first second =>
      first.entry.time ≤ second.entry.time) :
    ∀ node ∈ rest, deadline cfg (some tail) < node.entry.time := by
  rw [drained.pending, List.pairwise_append] at sorted
  intro node member
  cases hrest : rest with
  | nil =>
    rw [hrest] at member
    cases member
  | cons first others =>
    have hfirst := drained.left first (by rw [hrest]; rfl)
    rw [hrest] at member sorted
    rcases List.mem_cons.mp member with rfl | member
    · exact hfirst
    · exact hfirst.trans_le ((List.pairwise_cons.mp sorted.2.1).1 node member)

section

variable (deferred : Deferred cfg nodes state)

include deferred

theorem advance (htimeline : cfg.needTimeline = true)
    (made : Made cfg state node)
    (hpending : inserted.pending =
      if node.entry.tp.untraced then state.pending else state.pending ++ [node])
    (hsketch : inserted.sketch = state.sketch)
    (drained : Drained cfg node.entry inserted next taken rest) :
    ∃ done, traced (nodes ++ [node]) = done ++ next.pending ∧
      (∀ other ∈ done, isDue cfg (nodes ++ [node]) other = true) ∧
      (∀ other ∈ next.pending, isDue cfg (nodes ++ [node]) other = false) ∧
      next.sketch = Sketch.processAll cfg done := by
  obtain ⟨done, htraced, hdone, hold, hprocessed⟩ := deferred.split
  have hall : traced (nodes ++ [node]) = done ++ inserted.pending := by
    rw [traced_append, htraced, hpending]
    split
    · rename_i huntraced
      simp [traced, huntraced]
    · rename_i htraced
      simp [traced, htraced]
  have hseq : ∀ other ∈ inserted.pending,
      other.entry.seq ≤ node.entry.seq ∧ isDue cfg nodes other = false := by
    intro other member
    rw [hpending] at member
    have hcases : other ∈ state.pending ∨ other = node := by
      split at member
      · exact .inl member
      · rcases List.mem_append.mp member with member | member
        · exact .inl member
        · exact .inr (List.mem_singleton.mp member)
    rcases hcases with member | rfl
    · rw [made.seq]
      exact ⟨(deferred.numbered other (deferred.pending_mem member)).le, hold other member⟩
    · exact ⟨le_rfl, deferred.fresh htimeline made⟩
  have hsorted : inserted.pending.Pairwise fun first second =>
      first.entry.time ≤ second.entry.time := by
    have hhandled : state.nextSeq.eventHandled = state.eventHandled + 1 := rfl
    obtain ⟨_, _, _, hsorted⟩ := deferred.snoc made hhandled rfl
    have hsub : inserted.pending.Sublist (nodes ++ [node]) := (List.sublist_append_right done
      _).trans (hall ▸ List.filter_sublist)
    exact (hsorted.sublist hsub).imp fun both => both.2
  refine ⟨done ++ taken, ?_, ?_, ?_, ?_⟩
  · rw [hall, drained.pending, drained.after, List.append_assoc]
  · intro other member
    rw [isDue_snoc]
    rcases List.mem_append.mp member with member | member
    · exact .inl (hdone other member)
    · have hinside : other ∈ inserted.pending := by
        rw [drained.pending]
        exact List.mem_append_left _ member
      exact .inr ⟨(hseq other hinside).1, drained.due other member⟩
  · intro other member
    rw [drained.after] at member
    have hinside : other ∈ inserted.pending := by
      rw [drained.pending]
      exact List.mem_append_right _ member
    rw [Bool.eq_false_iff, Ne, isDue_snoc, (hseq other hinside).2]
    rintro (hdue | ⟨-, hdue⟩)
    · cases hdue
    · exact absurd hdue (not_le.mpr (left_late drained hsorted other member))
  · rw [drained.sketch, hsketch, hprocessed, Sketch.processAll_append]

theorem timeline (htimeline : cfg.needTimeline = true)
    (made : Made cfg state node) :
    Deferred cfg (nodes ++ [node]) (sampleTimeline cfg node state.nextSeq) := by
  have rule := (accounted_rule htimeline).stepRule
  have holds := deferred.accounted htimeline
  have haccounted := rule.sampleTimeline htimeline holds made
  unfold sampleTimeline at haccounted ⊢
  generalize hflag : (!node.needBackup || node.entry.tp.untraced) = unneeded at haccounted ⊢
  dsimp only at haccounted ⊢
  split
  · rename_i hskip
    rw [if_pos hskip] at haccounted
    simp only [Bool.and_eq_true, List.isEmpty_iff, decide_eq_true_iff] at hskip
    obtain ⟨⟨⟨hempty, hunneeded⟩, _⟩, hafter⟩ := hskip
    have hnone := deferred.pending_of_due fun _ => isDue_of_prompt hafter
    obtain ⟨_, _, _, accounted⟩ := holds
    have hbackup : state.sketch.backup = [] := accounted.backup_of_empty hempty
    obtain ⟨done, htraced, hdone, _, hsketch⟩ := deferred.split
    have hhandled : state.nextSeq.eventHandled = state.eventHandled + 1 := rfl
    obtain ⟨hcounted, hnumbered, hrecent, hsorted⟩ := deferred.snoc made hhandled rfl
    refine ⟨hcounted, hnumbered, hrecent, hsorted, deferred.noLoss,
      ⟨traced (nodes ++ [node]), ?_, ?_, ?_, ?_⟩, fun _ => haccounted⟩
    · rw [show state.nextSeq.pending = [] from hnone, List.append_nil]
    · intro other member
      exact isDue_of_prompt hafter (List.mem_of_mem_filter member)
    · rw [show state.nextSeq.pending = [] from hnone]
      simp
    · rw [traced_append, htraced, hnone, List.append_nil, Sketch.processAll_append, ← hsketch]
      by_cases huntraced : node.entry.tp.untraced = true
      · simp [traced, huntraced, State.sketch, State.nextSeq]
      · rw [hunneeded, Bool.or_eq_true, Bool.not_eq_true'] at hflag
        have hsame := Sketch.process_of_empty cfg hbackup (hflag.resolve_right huntraced)
        simp only [traced, huntraced, List.filter_cons, Bool.not_false,
          if_true, List.filter_nil, List.foldl_cons, List.foldl_nil]
        exact hsame.symm
  · rename_i hskip
    rw [if_neg hskip] at haccounted
    have hcore := timelineNodeNew_core node unneeded state.nextSeq
    have hpending := timelineNodeNew_pending node unneeded state.nextSeq
    have hview := view_of_core hcore
    have hsketch : (timelineNodeNew node unneeded state.nextSeq).sketch =
        state.sketch := by
      rw [← view_sketch, hview]
      exact view_sketch state
    have hclear : (timelineNodeNew node unneeded state.nextSeq).view.NoLoss := by
      rw [hview]
      exact deferred.noLoss
    obtain ⟨taken, rest, drained⟩ := @drainPending_drained cfg _ node.entry _ unneeded hclear le_rfl
    obtain ⟨hcounted, hnumbered, hrecent, hsorted⟩ := deferred.snoc made (drained.handled.trans
      (congrArg Core.eventHandled hcore)) (drained.recent.trans (congrArg Core.recentTime hcore))
    have hsplit := deferred.advance htimeline made hpending hsketch drained
    have hinserted := rule.insert state node holds htimeline made
    rw [hflag] at hinserted
    have hdrained := rule.drain htimeline node.entry (timelineNodeNew node unneeded
      state.nextSeq).pending.length unneeded hinserted
    split_ifs at haccounted with hfree
    · rw [if_pos hfree]
      obtain ⟨bound, now, queue, accounted⟩ := hdrained
      obtain ⟨_, hsame, hkept⟩ := accounted.free queue
      have hsketch' := (view_sketch _).symm.trans
        ((congrArg Core.sketch (view_of_core hsame)).trans (view_sketch _))
      have hhandled : (timelineFreeUnneeded cfg _).eventHandled = _ :=
        congrArg Core.eventHandled hsame
      refine ⟨hhandled.trans hcounted, ?_, ?_, hsorted, ?_, ?_, fun _ => haccounted⟩
      · rw [hhandled]
        exact hnumbered
      · rw [show (timelineFreeUnneeded cfg _).recentTime = _ from
          congrArg Core.recentTime hsame]
        exact hrecent
      · rw [view_of_core hsame]
        exact drained.noLoss
      · rw [hkept, hsketch']
        exact hsplit
    · rw [if_neg hfree]
      exact ⟨hcounted, hnumbered, hrecent, hsorted, drained.noLoss, hsplit, fun _ => haccounted⟩

theorem sample (hextra : cfg.extraEvsel = none) {sample : Sample}
    (chronological : state.recentTime ≤ sample.time) :
    Deferred cfg (nodes ++ receivedFrom cfg nodes.length [sample])
      (multiTraceSample cfg sample state) := by
  obtain ⟨hticked, htime⟩ := deferred.ticked chronological
  have hcount := hticked.counted
  unfold receivedFrom lookup multiTraceSample
  rw [← State.ticked]
  cases sample.evsel with
  | none => simpa [receivedFrom] using hticked
  | some evsel =>
    dsimp only [Option.bind_some]
    cases hfound : findTp evsel 0 cfg.tpList with
    | none =>
      simp only [hextra]
      simpa [receivedFrom, State.ticked] using hticked
    | some found =>
      obtain ⟨index, tp1, tp⟩ := found
      have made : Made cfg (state.ticked sample) (makeNode cfg sample index tp1 tp (state.ticked
            sample).eventHandled) := ⟨sample, index, tp1, tp, htime, rfl⟩
      dsimp only [receivedFrom]
      rw [← hcount]
      unfold sampleFound
      dsimp only
      split_ifs with htimeline
      · exact hticked.timeline htimeline made
      · exact hticked.plain (eq_false_of_ne_true htimeline) made

theorem run (hextra : cfg.extraEvsel = none)
    (hrun : Data.run (fun sample => step cfg (.sample sample)) samples state =
      some last) :
    Deferred cfg (nodes ++ receivedFrom cfg nodes.length samples) last := by
  induction samples generalizing nodes state with
  | nil =>
    cases hrun
    rw [receivedFrom, List.append_nil]
    exact deferred
  | cons sample rest ih =>
    obtain ⟨next, hstep, hrest⟩ := run_cons.mp hrun
    rw [step, Option.ite_none_left_eq_some] at hstep
    obtain ⟨hchrono, hnext⟩ := hstep
    cases hnext
    have hdeferred := ih (deferred.sample hextra (not_lt.mp hchrono)) hrest
    rw [receivedFrom_cons, ← List.append_assoc, ← List.length_append]
    exact hdeferred

end

end Deferred

theorem run_deferred (hextra : cfg.extraEvsel = none)
    (hrun : run (fun sample => step cfg (.sample sample)) samples State.init =
      some last) :
    Deferred cfg (received cfg samples) last := by
  have hdeferred := (Deferred.init cfg).run hextra hrun
  rw [List.nil_append] at hdeferred
  exact hdeferred

theorem receivedFrom_withTimeline (cfg : Config) (needTimeline : Bool)
    (seq : Nat) (samples : List Sample) :
    receivedFrom (cfg.withTimeline needTimeline) seq samples =
      receivedFrom cfg seq samples := by
  induction samples generalizing seq with
  | nil => rfl
  | cons sample rest ih =>
    have hlookup : lookup (cfg.withTimeline needTimeline) sample = lookup cfg sample := rfl
    rw [receivedFrom, receivedFrom, hlookup]
    cases lookup cfg sample with
    | none => exact ih seq
    | some found => exact congrArg (_ :: ·) (ih (seq + 1))

theorem process_withTimeline (cfg : Config) (one two : Bool) :
    Sketch.process (cfg.withTimeline one) =
      Sketch.process (cfg.withTimeline two) := by
  have hnew : Sketch.new (cfg.withTimeline one) = Sketch.new (cfg.withTimeline two) := by
    funext event sketch
    rw [Sketch.new, Sketch.new, backupInsert_withTimeline cfg one two]
  funext sketch node
  unfold Sketch.process Sketch.keep
  rw [hnew]
  rfl

theorem Sketch.process_pairs (cfg : Config) (sketch : Sketch) (node : Node) :
    ∃ extra, (sketch.process cfg node).pairs = sketch.pairs ++ extra ∧
      ∀ pair ∈ extra, pair.1 ∈ sketch.backup ∧ pair.2 = node.entry := by
  have hkeep : (sketch.process cfg node).pairs = (sketch.pair cfg node).pairs := by
    unfold process keep
    repeat' split
    all_goals rfl
  have hcall : ∀ prev ∈ sketch.backup, ∃ extra,
      (sketch.callTwo cfg prev node).pairs = sketch.pairs ++ extra ∧
        ∀ pair ∈ extra, pair.1 ∈ sketch.backup ∧ pair.2 = node.entry := by
    intro prev member
    unfold callTwo
    split
    · refine ⟨[(prev, node.entry)], rfl, ?_⟩
      intro pair hpair
      rw [List.mem_singleton.mp hpair]
      exact ⟨member, rfl⟩
    · exact ⟨[], (List.append_nil _).symm, by simp⟩
  rw [hkeep]
  unfold pair
  split
  · cases hprev : sketch.findPrev node with
    | none => exact ⟨[], (List.append_nil _).symm, by simp⟩
    | some prev =>
      have member := List.mem_of_find?_eq_some hprev
      dsimp only
      split
      · exact hcall prev member
      · exact hcall prev member
  · exact ⟨[], (List.append_nil _).symm, by simp⟩

theorem Sketch.foldl_pairs (cfg : Config) (nodes : List Node)
    (sketch : Sketch) :
    ∃ extra, (nodes.foldl (Sketch.process cfg) sketch).pairs =
        sketch.pairs ++ extra ∧
      ∀ pair ∈ extra, ∃ node ∈ nodes, pair.2 = node.entry := by
  induction nodes generalizing sketch with
  | nil => exact ⟨[], (List.append_nil _).symm, by simp⟩
  | cons node rest ih =>
    obtain ⟨first, hfirst, hnode⟩ := sketch.process_pairs cfg node
    obtain ⟨extra, hextra, hrest⟩ := ih (sketch.process cfg node)
    refine ⟨first ++ extra, ?_, ?_⟩
    · rw [List.foldl_cons, hextra, hfirst, List.append_assoc]
    · intro pair member
      rcases List.mem_append.mp member with member | member
      · exact ⟨node, .head rest, (hnode pair member).2⟩
      · obtain ⟨other, hother, hsame⟩ := hrest pair member
        exact ⟨other, .tail node hother, hsame⟩

theorem Core.handBack_pairs (cfg : Config) (reason : RemainingReason)
    (time : U64) (todo : List Entry) (core : Core) :
    pairs (Core.handBack cfg reason time todo core).acts = pairs core.acts := by
  induction todo generalizing core with
  | nil => rfl
  | cons left rest ih =>
    have hcall : pairs (core.callRemaining cfg left reason time).acts = pairs core.acts := by
      unfold Core.callRemaining
      split
      · refine (pairs_append _ _).trans ?_
        exact List.append_nil _
      · rfl
    rw [Core.handBack]
    split
    · exact (ih _).trans hcall
    · exact hcall

theorem flush_pairs (cfg : Config) (state : State) :
    pairs (multiTraceFlush cfg state).acts = pairs state.acts := by
  rw [← pairs_calls, flush_calls, Core.flush, Core.handBack_pairs]
  exact pairs_calls state.acts

/-- For every chronological sequence of samples: when the trace has been
flushed, the timeline has made the pairs of the plain mode if and only if for
each of them an event has come that is `after_event2` later than its second
event. -/
theorem timeline_pairs_iff_due {cfg : Config} (hextra : cfg.extraEvsel = none)
    {samples : List Sample} {plain detail : State}
    (hplain : run (fun sample => step (cfg.withTimeline false) (.sample sample))
      samples State.init = some plain)
    (hdetail : run (fun sample => step (cfg.withTimeline true) (.sample sample))
      samples State.init = some detail) :
    pairs (multiTraceFlush (cfg.withTimeline true) detail).acts =
      pairs (multiTraceFlush (cfg.withTimeline false) plain).acts ↔
      ∀ pair ∈ pairs plain.acts, ∃ tail ∈ received cfg samples,
        pair.2.seq ≤ tail.entry.seq ∧
        pair.2.time ≤ deadline cfg (some tail.entry) := by
  have hreceived : ∀ flag, received (cfg.withTimeline flag) samples =
      received cfg samples := fun flag => receivedFrom_withTimeline cfg flag 0 _
  have hnoExtra : ∀ flag, (cfg.withTimeline flag).extraEvsel = none := fun _ => hextra
  have hempty := (run_deferred (hnoExtra false) hplain).pending_of_due fun _ _ =>
    isDue_plain rfl _ _
  obtain ⟨all, hall, -, -, hone⟩ := (run_deferred (hnoExtra false) hplain).split
  obtain ⟨done, htraced, hdone, hpending, htwo⟩ := (run_deferred (hnoExtra true) hdetail).split
  rw [hreceived] at hall htraced hdone hpending
  have hboth : all = done ++ detail.pending := by rw [← htraced, hall, hempty, List.append_nil]
  have hprocess := process_withTimeline cfg false true
  obtain ⟨extra, hmore, hlate⟩ := Sketch.foldl_pairs (cfg.withTimeline true)
    detail.pending (Sketch.processAll (cfg.withTimeline true) done)
  obtain ⟨made, hmade, hearly⟩ := Sketch.foldl_pairs (cfg.withTimeline true) done Sketch.init
  have hpairs : pairs plain.acts = pairs detail.acts ++ extra := by
    have hsketch := congrArg Sketch.pairs hone
    rw [hboth, Sketch.processAll_append, Sketch.processAll, hprocess] at hsketch
    exact hsketch.trans (hmore.trans (congrArg (· ++ extra) (congrArg Sketch.pairs htwo).symm))
  have hdetailPairs : pairs detail.acts = made := (congrArg Sketch.pairs htwo).trans hmade
  rw [flush_pairs, flush_pairs, hpairs]
  constructor
  · intro same pair member
    have hnothing : extra = [] := by simpa using same
    rw [hnothing, List.append_nil, hdetailPairs] at member
    obtain ⟨node, hnode, hsame⟩ := hearly pair member
    rw [hsame]
    exact (isDue_iff.mp (hdone node hnode)).resolve_left (by simp [Config.withTimeline])
  · intro due
    suffices hnothing : extra = [] by rw [hnothing, List.append_nil]
    apply List.eq_nil_iff_forall_not_mem.mpr
    intro pair member
    obtain ⟨node, hnode, hsame⟩ := hlate pair member
    have hdue := due pair (List.mem_append_right _ member)
    rw [hsame] at hdue
    exact Bool.eq_false_iff.mp (hpending node hnode) (isDue_iff.mpr (.inr hdue))

def lastPair : List Sample := [sampleAt 0 1000 7, sampleAt 1 1001 7]

theorem timeline_pairs_iff_due_delay :
    ∃ plain detail : State, run (fun sample =>
          step ((delayConfig true 0 10).withTimeline false) (.sample sample))
        lastPair State.init = some plain ∧
      run (fun sample =>
          step ((delayConfig true 0 10).withTimeline true) (.sample sample))
        lastPair State.init = some detail ∧
      (pairs (multiTraceFlush ((delayConfig true 0 10).withTimeline true)
          detail).acts =
          pairs (multiTraceFlush ((delayConfig true 0 10).withTimeline false)
            plain).acts ↔
          ∀ pair ∈ pairs plain.acts,
            ∃ tail ∈ received (delayConfig true 0 10) lastPair,
              pair.2.seq ≤ tail.entry.seq ∧
              pair.2.time ≤
                deadline (delayConfig true 0 10) (some tail.entry)) := by
  refine ⟨_, _, (Option.some_get ?_).symm, (Option.some_get ?_).symm,
    timeline_pairs_iff_due rfl (Option.some_get _).symm (Option.some_get _).symm⟩
  all_goals decide +kernel

/-- With `after_event2` 10 the second event is still pending at the end. -/
theorem pending_pair_dropped_by_flush :
    ∃ plain detail : State, run (fun sample =>
          step ((delayConfig true 0 10).withTimeline false) (.sample sample))
        lastPair State.init = some plain ∧
      run (fun sample =>
          step ((delayConfig true 0 10).withTimeline true) (.sample sample))
        lastPair State.init = some detail ∧
      detail.pending.length = 2 ∧
      (pairs (multiTraceFlush ((delayConfig true 0 10).withTimeline false)
        plain).acts).length = 1 ∧
      pairs (multiTraceFlush ((delayConfig true 0 10).withTimeline true)
        detail).acts = [] := by
  refine ⟨_, _, (Option.some_get ?_).symm, (Option.some_get ?_).symm, ?_⟩
  all_goals decide +kernel

end PerfProf.MultiTrace
