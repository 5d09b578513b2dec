import PerfProf.MultiTrace.Run

namespace PerfProf.MultiTrace

structure Waits (cfg : Config) (bound : Nat) (now : U64) (state : State)
    (node : Node) : Prop where
  seq_ge : bound ≤ node.entry.seq
  seq_lt : node.entry.seq < state.eventHandled
  time_ge : now ≤ node.entry.time
  time_le : node.entry.time ≤ state.recentTime
  traced : node.entry.tp.untraced = false
  needRemove : cfg.nested = false → node.needRemove = true

structure Queue (cfg : Config) (bound : Nat) (now : U64) (state : State) :
    Prop where
  bound_le : bound ≤ state.eventHandled
  now_le : now ≤ state.recentTime
  waits : ∀ node ∈ state.pending, Waits cfg bound now state node
  ordered : state.pending.Pairwise fun first second =>
    first.entry.seq < second.entry.seq ∧ first.entry.time ≤ second.entry.time
  plain : cfg.needTimeline = false → state.pending = []

namespace Queue

variable {cfg : Config} {bound : Nat} {now : U64} {state next : State}

theorem init (cfg : Config) : Queue cfg 0 0 State.init where
  bound_le := Nat.le_refl 0
  now_le := Fin.zero_le _
  waits := fun node member => by cases member
  ordered := List.Pairwise.nil
  plain := fun _ => rfl

section

variable (queue : Queue cfg bound now state)

include queue

theorem mono (hseq : state.eventHandled ≤ next.eventHandled)
    (htime : state.recentTime ≤ next.recentTime)
    (hpending : next.pending.Sublist state.pending) :
    Queue cfg bound now next where
  bound_le := queue.bound_le.trans hseq
  now_le := queue.now_le.trans htime
  waits node member := by
    have waits := queue.waits node (hpending.subset member)
    exact ⟨waits.seq_ge, waits.seq_lt.trans_le hseq, waits.time_ge,
      waits.time_le.trans htime, waits.traced, waits.needRemove⟩
  ordered := queue.ordered.sublist hpending
  plain hplain := by
    rw [queue.plain hplain] at hpending
    exact List.sublist_nil.mp hpending

theorem frame (same : next.queue = state.queue) : Queue cfg bound now next := by
  simp only [State.queue, Prod.mk.injEq] at same
  exact queue.mono same.2.1.ge same.2.2.ge (same.1 ▸ List.Sublist.refl _)

theorem nextSeq : Queue cfg bound now state.nextSeq :=
  queue.mono (Nat.le_succ _) le_rfl (List.Sublist.refl _)

theorem core (hcore : next.core = state.core)
    (hpending : next.pending.Sublist state.pending) :
    Queue cfg bound now next :=
  queue.mono (congrArg Core.eventHandled hcore).ge (congrArg Core.recentTime hcore).ge hpending

theorem insert (htimeline : cfg.needTimeline =
  true) (made : Made cfg state node) (unneeded : Bool) :
    Queue cfg bound now (timelineNodeNew node unneeded state.nextSeq) := by
  have hcore := timelineNodeNew_core node unneeded state.nextSeq
  have hpending := timelineNodeNew_pending node unneeded state.nextSeq
  split_ifs at hpending with htraced
  · exact queue.nextSeq.core hcore (hpending ▸ List.Sublist.refl _)
  · have hhandled : (timelineNodeNew node unneeded state.nextSeq).eventHandled =
        state.eventHandled + 1 := congrArg Core.eventHandled hcore
    have hrecent : (timelineNodeNew node unneeded state.nextSeq).recentTime =
        state.recentTime := congrArg Core.recentTime hcore
    refine ⟨hhandled ▸ Nat.le_succ_of_le queue.bound_le, hrecent ▸ queue.now_le, ?_, ?_, ?_⟩
    · rw [hpending]
      intro other member
      rcases List.mem_append.mp member with member | member
      · have waits := queue.waits other member
        exact ⟨waits.seq_ge, hhandled ▸ Nat.lt_succ_of_lt waits.seq_lt,
          waits.time_ge, hrecent ▸ waits.time_le, waits.traced, waits.needRemove⟩
      · rw [List.mem_singleton.mp member]
        refine ⟨made.seq ▸ queue.bound_le, ?_, made.time ▸ queue.now_le, ?_,
          by simpa using htraced, made.needRemove⟩
        · rw [hhandled, made.seq]
          exact Nat.lt_succ_self _
        · rw [hrecent, made.time]
    · rw [hpending, List.pairwise_append]
      refine ⟨queue.ordered, List.pairwise_singleton _ _, ?_⟩
      intro first hfirst second hsecond
      rw [List.mem_singleton.mp hsecond, made.seq, made.time]
      exact ⟨(queue.waits first hfirst).seq_lt, (queue.waits first hfirst).time_le⟩
    · intro hplain
      cases htimeline.symm.trans hplain

theorem pop (hpending : state.pending = first :: rest) :
    Queue cfg (first.entry.seq + 1) first.entry.time
      (popPending first rest state) := by
  have hcore := popPending_core first rest state
  have hhandled : (popPending first rest state).eventHandled =
      state.eventHandled := congrArg Core.eventHandled hcore
  have hrecent : (popPending first rest state).recentTime = state.recentTime :=
    congrArg Core.recentTime hcore
  have hwaits := queue.waits
  have hordered := queue.ordered
  rw [hpending] at hwaits hordered
  obtain ⟨hfirst, hrest⟩ := List.pairwise_cons.mp hordered
  have hhead := hwaits first (.head rest)
  refine ⟨hhandled ▸ hhead.seq_lt, hrecent ▸ hhead.time_le, ?_, ?_, ?_⟩
  · rw [popPending_pending]
    intro other member
    have waits := hwaits other (.tail first member)
    obtain ⟨hseq, htime⟩ := hfirst other member
    exact ⟨hseq, hhandled ▸ waits.seq_lt, htime, hrecent ▸ waits.time_le,
      waits.traced, waits.needRemove⟩
  · rw [popPending_pending]
    exact hrest
  · intro hplain
    rw [queue.plain hplain] at hpending
    cases hpending

theorem taken (hplain : cfg.needTimeline = false) (made : Made cfg state node) :
    Queue cfg (node.entry.seq + 1) node.entry.time state.nextSeq := by
  have hnone := queue.plain hplain
  refine ⟨made.seq ▸ Nat.le_refl _, made.time ▸ le_rfl, ?_, queue.ordered, queue.plain⟩
  intro other member
  change other ∈ state.pending at member
  rw [hnone] at member
  cases member

theorem free : Queue cfg bound now (timelineFreeUnneeded cfg state) := by
  apply freeUnneeded_preserves (Queue cfg bound now) _ _ _ queue
  · exact fun _ _ _ queue => queue.frame ((queue_frame cfg).remove _ _)
  · exact fun _ queue => queue.frame rfl
  · exact fun state queue => queue.core (timelineNodeDelete_core state)
      (timelineNodeDelete_pending state)

end

end Queue

structure QueueRule (cfg : Config) (allowed : LostGuard)
    (Inv : Nat → U64 → State → Prop) : Prop where
  nodup : ∀ {bound now state}, Inv bound now state → state.backup.Nodup
  tick : ∀ {bound now state} time, Inv bound now state →
    state.recentTime ≤ time → Inv bound now (state.setRecentTime time)
  skip : ∀ {bound now state}, Inv bound now state → Inv bound now state.nextSeq
  insert : ∀ {bound now state node}, Inv bound now state →
    cfg.needTimeline = true → Made cfg state node →
    Inv bound now (timelineNodeNew node (!node.needBackup || node.entry.tp.untraced) state.nextSeq)
  pending : ∀ {bound now state first rest next}, Inv bound now state →
    cfg.needTimeline = true → state.pending = first :: rest →
    Waits cfg bound now state first →
    Processed cfg first (popPending first rest state) next →
    Inv (first.entry.seq + 1) first.entry.time next
  plain : ∀ {bound now state node next}, Inv bound now state →
    cfg.needTimeline = false → Made cfg state node →
    Waits cfg bound now state.nextSeq node →
    Processed cfg node state.nextSeq next →
    Inv (node.entry.seq + 1) node.entry.time next
  free : ∀ {bound now state}, Inv bound now state → Queue cfg bound now state →
    cfg.needTimeline = true → Inv bound now (timelineFreeUnneeded cfg state)
  releases : ∀ {bound now state next}, Inv bound now state →
    Releases cfg state next → Inv bound now next
  lost : ∀ {bound now state} ins startTime endTime, Inv bound now state →
    allowed state startTime endTime →
    Inv bound now (setLostList cfg ins
      (queueLost cfg ⟨ins, false, startTime, endTime⟩ (lostList cfg ins state))
      state)

def Queued (cfg : Config) (Inv : Nat → U64 → State → Prop) (state : State) :
    Prop :=
  ∃ bound now, Queue cfg bound now state ∧ Inv bound now state

theorem QueueRule.stepRule {Inv : Nat → U64 → State → Prop}
    (rule : QueueRule cfg allowed Inv) :
    StepRule cfg allowed (Queued cfg Inv) where
  nodup := by
    rintro state ⟨bound, now, _, holds⟩
    exact rule.nodup holds
  tick := by
    rintro state time ⟨bound, now, queue, holds⟩ htime
    exact ⟨bound, now, queue.mono le_rfl htime (List.Sublist.refl _), rule.tick time holds htime⟩
  skip := by
    rintro state ⟨bound, now, queue, holds⟩
    exact ⟨bound, now, queue.nextSeq, rule.skip holds⟩
  insert := by
    rintro state node ⟨bound, now, queue, holds⟩ htimeline made
    exact ⟨bound, now, queue.insert htimeline made _, rule.insert holds htimeline made⟩
  pending := by
    rintro state first rest next ⟨bound, now, queue, holds⟩ htimeline hpending processed
    refine ⟨_, _, (queue.pop hpending).frame ((queue_frame cfg).processed processed),
      rule.pending holds htimeline hpending (queue.waits first ?_) processed⟩
    rw [hpending]
    exact .head rest
  plain := by
    rintro state node next ⟨bound, now, queue, holds⟩ hplain made htraced processed
    refine ⟨_, _, (queue.taken hplain made).frame ((queue_frame cfg).processed processed),
      rule.plain holds hplain made ?_ processed⟩
    refine ⟨made.seq ▸ queue.bound_le, ?_, made.time ▸ queue.now_le,
      made.time.le, htraced, made.needRemove⟩
    rw [made.seq]
    exact Nat.lt_succ_self _
  free := by
    rintro state ⟨bound, now, queue, holds⟩ htimeline
    exact ⟨bound, now, queue.free, rule.free holds queue htimeline⟩
  releases := by
    rintro state next ⟨bound, now, queue, holds⟩ released
    exact ⟨bound, now, queue.frame ((queue_frame cfg).releases released),
      rule.releases holds released⟩
  lost := by
    rintro state ins startTime endTime ⟨bound, now, queue, holds⟩ hallowed
    exact ⟨bound, now, queue.frame ((queue_frame cfg).lost _ _ _),
      rule.lost ins startTime endTime holds hallowed⟩

end PerfProf.MultiTrace
