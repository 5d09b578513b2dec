import PerfProf.Order.Lost

namespace PerfProf.Order

variable {ι δ : Type}

theorem Phase.of_draining {phase : Phase ι} (draining : phase.draining = true) :
    phase.reading = phase.busy ∧ phase.todo = [] ∧ phase.resting = false := by
  cases phase <;> first | exact ⟨rfl, rfl, rfl⟩ | cases draining

theorem Phase.reading_of_reads {phase : Phase ι} {ins : ι}
    (reads : phase.reads = some ins) : phase.reading = some ins := by
  cases phase <;> first | exact reads | cases reads

namespace Record

variable {record : Record}

theorem isLost_of_isSample (sample : record.isSample = true) :
    record.isLost = false := by
  obtain ⟨time, hpayload⟩ := isSample_iff.mp sample
  rw [isLost, hpayload]

theorem leavesOpen_of_isSample (sample : record.isSample = true)
    (before : Nat) : record.leavesOpen before = 0 := by
  obtain ⟨time, hpayload⟩ := isSample_iff.mp sample
  rw [leavesOpen, hpayload]

theorem leavesOpen_of_other (plain : record.isSample = false)
    (handed : record.isLost = false) (before : Nat) :
    record.leavesOpen before = before := by
  cases hpayload : record.payload with
  | sample time => simp [isSample, hpayload] at plain
  | lost id lost => simp [isLost, hpayload] at handed
  | other => rw [leavesOpen, hpayload]

theorem lostRecords_of_isSample (sample : record.isSample = true) :
    lostRecords [record] = [] := by
  obtain ⟨time, hpayload⟩ := isSample_iff.mp sample
  simp [lostRecords, lostRecord?, hpayload]

end Record

structure Follows (s next : State ι δ) : Prop where
  sources : ∀ ins, ins ∈ next.heap ∨ ins ∈ next.phase.todo → ins ∈ s.heap ∨ ins ∈ s.phase.todo
  filling : next.phase.todo ≠ [] → s.phase.todo ≠ [] ∧ next.lost = s.lost
  draining : s.phase.draining = true → next.phase.draining = true ∨ next.phase = .idle

structure Begins (cfg : Config ι δ) (s next : State ι δ) : Prop where
  heap : next.heap = []
  phase : next.phase = .heapInit cfg.heapEventList
  lost : next.lost = .none
  resting : s.phase.resting = true

theorem Follows.of_same (hheap : next.heap = s.heap)
    (hphase : next.phase = s.phase) (hlost : next.lost = s.lost) :
    Follows s next where
  sources := by
    intro ins
    rw [hheap, hphase]
    exact id
  filling := by
    rw [hphase]
    exact fun filled => ⟨filled, hlost⟩
  draining := by
    rw [hphase]
    exact .inl

theorem Follows.of_drained {s next : State ι δ}
    (hheap : ∀ ins, ins ∈ next.heap → ins ∈ s.heap)
    (hphase : next.phase.draining = true ∨ next.phase = .idle) :
    Follows s next := by
  have htodo : next.phase.todo = [] := by
    rcases hphase with hphase | hphase
    · exact (Phase.of_draining hphase).2.1
    · rw [hphase]
      rfl
  refine ⟨?_, ?_, fun _ => hphase⟩
  · rintro ins (member | member)
    · exact .inl (hheap ins member)
    · rw [htodo] at member
      cases member
  · intro filled
    exact absurd htodo filled

theorem Follows.drained {s next : State ι δ} (hheap : next.heap = s.heap)
    (hphase : next.phase.draining = true) : Follows s next :=
  .of_drained (fun _ member => hheap ▸ member) (.inl hphase)

section Steps

variable [DecidableEq ι] {cfg : Config ι δ} {s next : State ι δ} {ins : ι}

omit [DecidableEq ι] in
theorem Follows.of_filling
    (hsources : ∀ ins, ins ∈ next.heap ∨ ins ∈ next.phase.todo →
      ins ∈ s.heap ∨ ins ∈ s.phase.todo)
    (hfilling : s.phase.todo ≠ []) (hlost : next.lost = s.lost)
    (hphase : s.phase.draining = false) : Follows s next where
  sources := hsources
  filling := fun _ => ⟨hfilling, hlost⟩
  draining := fun draining => absurd draining (by simp [hphase])

omit [DecidableEq ι] in
theorem beginHeap_begins (cfg : Config ι δ) (target : Option ι)
    (targetEnd targetTm : Nat) (hphase : s.phase.resting = true) :
    Begins cfg s (beginHeap cfg target targetEnd targetTm s) :=
  ⟨rfl, rfl, rfl, hphase⟩

theorem orderProcess_follows (hphase : s.phase = .idle) (target : Option ι)
    (targetTm : Nat) :
    Begins cfg s (orderProcess cfg target targetTm s) ∨
    Follows s (orderProcess cfg target targetTm s) := by
  cases target with
  | none => exact .inl (beginHeap_begins cfg _ _ _ (by rw [hphase]; rfl))
  | some ins =>
    refine .inr ?_
    simp only [orderProcess]
    split
    · refine ⟨?_, fun filled => absurd rfl filled, ?_⟩
      · rintro other (member | member)
        · exact .inl member
        · cases member
      · rw [hphase]
        intro draining
        cases draining
    · exact .of_same rfl rfl rfl

omit [DecidableEq ι] in
theorem targetStep_follows {targetTm : Nat}
    (hphase : s.phase = .target ins targetTm) :
    Begins cfg s (targetStep cfg ins targetTm s) ∨
    Follows s (targetStep cfg ins targetTm s) := by
  unfold targetStep
  split
  · exact .inr (.of_drained (fun _ member => member) (.inr rfl))
  · exact .inl (beginHeap_begins cfg _ _ _ (by rw [hphase]; rfl))

variable {todo : List ι} {action : Action ι}

omit [DecidableEq ι] in
theorem sources_rest (htodo : s.phase.todo = ins :: todo) (other : ι)
    (member : other ∈ s.heap ∨ other ∈ todo) :
    other ∈ s.heap ∨ other ∈ s.phase.todo := by
  rw [htodo]
  exact member.imp_right (List.mem_cons_of_mem ins)

theorem mmapEventInit_follows (hphase : s.phase = .heapInit (ins :: todo)) :
    Follows s (mmapEventInit ins todo s) := by
  have hfilling : s.phase.todo ≠ [] := by simp [hphase, Phase.todo]
  have hdraining : s.phase.draining = false := by rw [hphase]; rfl
  have hsources := sources_rest (show s.phase.todo = ins :: todo by rw [hphase]; rfl)
  unfold mmapEventInit
  split
  · exact .of_filling hsources hfilling rfl hdraining
  · dsimp only
    split
    · refine .of_filling ?_ hfilling rfl hdraining
      rintro other (member | member)
      · exact .inl member
      · rw [hphase]
        exact .inr member
    · exact .of_filling hsources hfilling rfl hdraining

variable [DecidableEq δ]

theorem mmapEventRetry_follows (hphase : s.phase = .retry ins lost todo) :
    Follows s (mmapEventRetry cfg ins lost todo s) := by
  have hfilling : s.phase.todo ≠ [] := by simp [hphase, Phase.todo]
  have hdraining : s.phase.draining = false := by rw [hphase]; rfl
  have hsources := sources_rest (show s.phase.todo = ins :: todo by rw [hphase]; rfl)
  have hagain : ∀ other, other ∈ s.heap ∨ other ∈ ins :: todo →
      other ∈ s.heap ∨ other ∈ s.phase.todo := by
    intro other member
    rw [hphase]
    exact member
  unfold mmapEventRetry
  split
  · exact .of_filling hsources hfilling rfl hdraining
  · dsimp only
    split
    · rename_i map position record writable _ _ time _
      refine .of_filling ?_ hfilling (fixAtInit_lost cfg s ins _ lost) hdraining
      have hheap : (reportLost (fixAtInit cfg ins ((s.ev ins).readAhead map position record time
          writable) s) ins lost).heap = s.heap := (reportLost_heap _ ins lost).trans
          (fixAtInit_frame cfg s ins _).2.2.1
      intro other member
      simp only [State.goto, State.push, hheap, List.mem_append,
        List.mem_singleton, Phase.todo] at member
      rcases member with (member | rfl) | member
      · exact .inl member
      · exact .inr (by simp [hphase, Phase.todo])
      · exact hsources other (.inr member)
    · split <;> exact .of_filling hagain hfilling rfl hdraining
    · exact .of_filling hagain hfilling rfl hdraining

theorem processTop_follows (hstep : processTop cfg ins s = some next) :
    Follows s next := by
  cases processTop_turned hstep with
  | late | kept | paused => exact .drained rfl rfl
  | popped hevent lostEnd pause =>
    obtain ⟨_, hheap, hnext⟩ := popEvent_frame cfg s ins _ _ _
    exact .drained hheap (by rw [hnext]; rfl)

omit [DecidableEq δ] in
theorem consumeStep_follows (needBreak : Bool) :
    Follows s (consumeStep cfg ins needBreak s) := by
  unfold consumeStep
  dsimp only
  split <;> exact .drained rfl rfl

theorem readStep_follows (needBreak : Bool) :
    Follows s (readStep cfg ins needBreak s) := by
  have hresume := (@resume_phase ι needBreak).2.1
  unfold readStep
  dsimp only
  split
  · refine .of_drained ?_ (.inl hresume)
    exact fun _ member => List.mem_of_mem_erase member
  · split
    · rename_i map position record writable _ _ time _
      exact .drained (flushLost_frame ins (s.setEvent ins
        ((s.ev ins).readAhead map position record time writable))).2 hresume
    · split <;> exact .drained rfl rfl
    · exact .drained rfl rfl

omit [DecidableEq δ] in
theorem unwindStep_follows (hphase : s.phase = .unwind) :
    Follows s (unwindStep s) := by
  unfold unwindStep
  split
  · exact .of_drained (fun _ member => member) (.inr rfl)
  · rename_i head rest hheap
    have hdraining : s.phase.draining = true := by rw [hphase]; rfl
    refine .of_drained ?_ (.inl hdraining)
    intro other member
    rw [hheap]
    exact List.mem_cons_of_mem _ member

theorem step_follows (hstep : step cfg action s = some next) :
    Begins cfg s next ∨ Follows s next := by
  cases step_stepped hstep with
  | arrive appended => exact .inr (.of_same rfl rfl rfl)
  | scribble old => exact .inr (.of_same rfl rfl rfl)
  | call target targetTm hphase => exact orderProcess_follows hphase _ _
  | target hphase => exact targetStep_follows hphase
  | filled hphase => exact .inr (.drained rfl rfl)
  | init hphase => exact .inr (mmapEventInit_follows hphase)
  | retry hphase => exact .inr (mmapEventRetry_follows hphase)
  | empty hphase => exact .inr (.drained rfl rfl)
  | top hphase member least htop => exact .inr (processTop_follows htop)
  | consume hphase => exact .inr (consumeStep_follows _)
  | read hphase => exact .inr (readStep_follows _)
  | unwind hphase => exact .inr (unwindStep_follows hphase)

theorem step_tallied (tallied : Tallied cfg s)
    (hstep : step cfg action s = some next) : Tallied cfg next where
  delivered := step_delivered tallied.delivered hstep
  listed := by
    intro ins member
    rcases step_follows hstep with begins | follows
    · rw [begins.heap, begins.phase] at member
      rcases member with member | member
      · cases member
      · exact member
    · exact tallied.listed ins (follows.sources ins member)
  filling := by
    intro filled
    rcases step_follows hstep with begins | follows
    · exact begins.lost
    · obtain ⟨hfilled, hlost⟩ := follows.filling filled
      rw [hlost]
      exact tallied.filling hfilled

end Steps

section Books

variable [DecidableEq ι] {cfg : Config ι δ} {s next : State ι δ} {ins : ι}

def lostFound (s : State ι δ) (ins : ι) : List LostRecord :=
  lostRecords (s.ev ins).map.passed

def books (cfg : Config ι δ) (s : State ι δ) : Data.Slot ι LostRecord where
  found := fun ins =>
    if cfg.hasLost (cfg.dev ins) then lostFound s ins else []
  reported := fun ins => lostReports ins s.out
  waiting := s.waiting.toList
  reading := s.phase.reading

def Drops (cfg : Config ι δ) (reads : Option ι) (s : State ι δ) : Prop :=
  ∃ ins, reads = some ins ∧ s.waiting.toList ≠ [] ∧
    ∀ record, (s.ev ins).map.upcoming? = some record → takesLost cfg ins record = true

omit [DecidableEq ι] in
theorem Still.lostFound (still : Still s next ins)
    (tracked : ∃ before after, Reader (s.ev ins).map before after) :
    Order.lostFound next ins = Order.lostFound s ins := by
  obtain ⟨before, after, reader⟩ := tracked
  obtain ⟨more, hnext⟩ := still before after reader
  rw [Order.lostFound, Order.lostFound, reader.passed, hnext.passed]

theorem Calm.found (calm : Calm s next) (inv : Delivered cfg s) :
    (books cfg next).found = (books cfg s).found := by
  funext ins
  simp only [books, (calm.still ins).lostFound (inv.tracked ins).reader]

theorem Calm.reported (calm : Calm s next) :
    (books cfg next).reported = (books cfg s).reported :=
  funext calm.reports

omit [DecidableEq ι] in
theorem lostRecords_of_handed (handler : cfg.hasLost (cfg.dev ins) = true)
    (handed : takesLost cfg ins record = false) :
    lostRecords [record] = [] := by
  unfold takesLost at handed
  cases hpayload : record.payload with
  | sample time => simp [lostRecords, Record.lostRecord?, hpayload]
  | lost id lost =>
    rw [hpayload] at handed
    exact absurd handed (by simp [handler])
  | other => simp [lostRecords, Record.lostRecord?, hpayload]

omit [DecidableEq ι] in
theorem takesLost_eq_isLost (record : Record)
    (handler : cfg.hasLost (cfg.dev ins) = true) :
    takesLost cfg ins record = record.isLost := by
  unfold takesLost Record.isLost
  cases record.payload with
  | sample time => rfl
  | lost id lost => exact handler
  | other => rfl

theorem Passes.found_same (passes : Passes ins record s next)
    (inv : Delivered cfg s) (handed : takesLost cfg ins record = false) :
    (books cfg next).found = (books cfg s).found := by
  funext other
  dsimp only [books]
  by_cases handler : cfg.hasLost (cfg.dev other) = true
  · rw [if_pos handler, if_pos handler]
    by_cases same : other = ins
    · subst same
      obtain ⟨before, after, reader, hnext⟩ := passes.reader
      rw [lostFound, lostFound, reader.passed, hnext.passed, lostRecords_append,
        lostRecords_of_handed handler handed, List.append_nil]
    · exact (passes.others other same).lostFound (inv.tracked other).reader
  · rw [if_neg handler, if_neg handler]

theorem Passes.found_lost {record : Record} {id lost : Nat}
    (passes : Passes ins record s next) (inv : Delivered cfg s)
    (payload : record.payload = .lost id lost)
    (handler : cfg.hasLost (cfg.dev ins) = true) :
    (books cfg next).found =
      Function.update (books cfg s).found ins
        ((books cfg s).found ins ++ LostRecord.toList ⟨id, lost⟩) := by
  have hone : lostRecords [record] = LostRecord.toList ⟨id, lost⟩ := by
    by_cases hzero : lost = 0
    · simp [lostRecords, Record.lostRecord?, payload, LostRecord.toList, hzero]
    · simp [lostRecords, Record.lostRecord?, payload, LostRecord.toList, hzero]
  funext other
  by_cases same : other = ins
  · subst same
    obtain ⟨before, after, reader, hnext⟩ := passes.reader
    rw [Function.update_self]
    simp only [books, if_pos handler, lostFound, reader.passed, hnext.passed,
      lostRecords_append, hone]
  · rw [Function.update_of_ne same]
    simp only [books, (passes.others other same).lostFound (inv.tracked other).reader]

theorem Passes.books_lost {record : Record} {id lost : Nat}
    (passes : Passes ins record s next) (inv : Delivered cfg s)
    (payload : record.payload = .lost id lost)
    (handler : cfg.hasLost (cfg.dev ins) = true)
    (reports : ∀ other, lostReports other next.out = lostReports other s.out)
    (reading : next.phase.reading = s.phase.reading)
    (waiting : next.waiting = ⟨id, lost⟩) :
    books cfg next = { books cfg s with
        found := Function.update (books cfg s).found ins
          ((books cfg s).found ins ++ LostRecord.toList ⟨id, lost⟩)
        waiting := LostRecord.toList ⟨id, lost⟩ } :=
  Data.Slot.ext (passes.found_lost inv payload handler) (funext reports)
    (congrArg LostRecord.toList waiting) reading

theorem Calm.books (calm : Calm s next) (inv : Delivered cfg s) :
    Order.books cfg next =
      { Order.books cfg s with
        waiting := next.waiting.toList
        reading := next.phase.reading } :=
  Data.Slot.ext (calm.found inv) calm.reported rfl rfl

variable {reads : Option ι}

omit [DecidableEq ι] in
theorem waiting_of_exhausted (kept : ¬ Drops cfg (some source) s)
    (exhausted : (s.ev source).map.upcoming? = none) :
    s.waiting.toList = [] := by
  by_contra hwaits
  refine kept ⟨source, rfl, hwaits, fun record hrecord => ?_⟩
  cases exhausted.symm.trans hrecord

theorem Effect.move (effect : Effect cfg reads s next) (inv : Delivered cfg s) :
    ∃ flag, Data.Slot.Move flag (books cfg s) (books cfg next) ∧
      (¬ Drops cfg reads s → flag = true) := by
  cases effect with
  | quiet calm reading waiting =>
    rw [calm.books inv, waiting, reading]
    exact ⟨true, .keep, fun _ => rfl⟩
  | clear calm closed after empty =>
    rw [calm.books inv, empty, after.trans closed.symm]
    exact ⟨true, .clear closed, fun _ => rfl⟩
  | enter ins calm closed opened waiting =>
    rw [calm.books inv, waiting, opened]
    exact ⟨true, .enter ins closed, fun _ => rfl⟩
  | giveBack ins record sample passes others reports closed after waiting =>
    have hfound : (books cfg next).found = (books cfg s).found := by
      funext other
      by_cases same : other = ins
      · subst same
        obtain ⟨before, after, hnext, reader⟩ := passes.reader
        have hnone := Record.lostRecords_of_isSample sample
        simp only [books, lostFound, reader.passed, hnext.passed,
          lostRecords_append, hnone, List.append_nil]
      · simp only [books, (others other same).lostFound (inv.tracked other).reader]
    have hbooks : books cfg next = books cfg s :=
      Data.Slot.ext hfound (funext reports) waiting (after.trans closed.symm)
    rw [hbooks]
    exact ⟨true, .keep, fun _ => rfl⟩
  | pass ins record plain handed passes reports reading after waiting =>
    have hbooks : books cfg next = books cfg s := Data.Slot.ext (passes.found_same inv handed)
      (funext reports) waiting (after.trans reading.symm)
    rw [hbooks]
    exact ⟨true, .keep, fun _ => rfl⟩
  | take ins record id lost payload handler passes reports reading after
      waiting =>
    rw [passes.books_lost inv payload handler reports (after.trans reading.symm) waiting]
    refine ⟨_, .take ins _ reading, fun kept => ?_⟩
    by_contra hfull
    refine kept ⟨ins, rfl, ?_, ?_⟩
    · intro hempty
      exact hfull (List.isEmpty_iff.mpr hempty)
    · intro upcoming hupcoming
      obtain ⟨before, after, reader, _⟩ := passes.reader
      cases hupcoming.symm.trans reader.upcoming?
      simp [takesLost, payload, handler]
  | report ins record sample passes reports reading after empty =>
    have hreported : (books cfg next).reported = Function.update (books cfg s).reported ins
          ((books cfg s).reported ins ++ (books cfg s).waiting) := by
      funext other
      refine (reports other).trans ?_
      by_cases same : other = ins
      · subst same
        rw [if_pos rfl, Function.update_self]
        rfl
      · rw [if_neg (Ne.symm same), Function.update_of_ne same, List.append_nil]
        rfl
    have hbooks : books cfg next = { books cfg s with
          reported := Function.update (books cfg s).reported ins
            ((books cfg s).reported ins ++ (books cfg s).waiting)
          waiting := []
          reading := none } :=
      Data.Slot.ext (passes.found_same inv (takesLost_of_isSample cfg ins sample))
        hreported empty after
    rw [hbooks]
    exact ⟨true, .report ins reading, fun _ => rfl⟩
  | leave ins calm exhausted reading after waiting gone draining =>
    rw [calm.books inv, waiting, after]
    exact ⟨_, .leave ins reading, fun kept =>
      List.isEmpty_iff.mpr (waiting_of_exhausted kept exhausted)⟩
  | discard ins calm exhausted reading after empty =>
    rw [calm.books inv, empty, after]
    exact ⟨_, .discard ins reading, fun kept =>
      List.isEmpty_iff.mpr (waiting_of_exhausted kept exhausted)⟩

omit [DecidableEq ι] in
theorem toList_positive (lost : LostRecord) :
    ∀ item ∈ lost.toList, 0 < item.lost := by
  unfold LostRecord.toList
  split_ifs with hcount
  · simp
  · intro item member
    rw [List.mem_singleton.mp member]
    exact Nat.pos_of_ne_zero hcount

theorem Effect.careless (effect : Effect cfg reads s next)
    (inv : Delivered cfg s) (drops : Drops cfg reads s)
    (balanced : (books cfg s).Balanced)
    (member : ∀ source, s.phase.reading = some source → source ∈ sources) :
    (books cfg next).Behind LostRecord.lost sources ∨
    ∃ source, (books cfg next).Short LostRecord.lost source ∧
      source ∉ next.heap ∧
      next.phase.draining = true := by
  obtain ⟨dropped, hreads, hwaits, hupcoming⟩ := drops
  have hweight : 0 < Data.Slot.heaviness LostRecord.lost (books cfg s).waiting :=
    Data.Slot.heaviness_pos _ (toList_positive s.waiting) hwaits
  have hhanded : ∀ {record : Record}, Passes dropped record s next →
      takesLost cfg dropped record = true := by
    intro record passes
    obtain ⟨before, after, reader, _⟩ := passes.reader
    exact hupcoming record reader.upcoming?
  cases effect with
  | quiet => cases hreads
  | clear => cases hreads
  | enter => cases hreads
  | giveBack => cases hreads
  | pass ins record plain handed passes reports reading after waiting =>
    cases hreads
    rw [hhanded passes] at handed
    cases handed
  | take ins record id lost payload handler passes reports reading after
      waiting =>
    rw [passes.books_lost inv payload handler reports (after.trans reading.symm) waiting]
    exact .inl (balanced.behind_take reading (member ins reading) hweight _)
  | report ins record sample passes reports reading after empty =>
    cases hreads
    have htaken := hhanded passes
    rw [takesLost_of_isSample cfg dropped sample] at htaken
    cases htaken
  | leave ins calm exhausted reading after waiting gone draining =>
    refine .inr ⟨ins, ?_, gone, draining⟩
    rw [calm.books inv, waiting, after]
    exact balanced.short_leave reading hweight
  | discard ins calm exhausted reading after empty =>
    rw [calm.books inv, empty, after]
    exact .inl (balanced.behind_discard reading (member ins reading) hweight)

structure Noted (cfg : Config ι δ) (s : State ι δ) (ins : ι) : Prop where
  waits : s.phase.reading = some ins → s.waiting.toList ≠ [] → openLoss (s.ev ins).map.passed ≠ 0
  rests : (s.phase.reading = some ins → s.waiting.toList = []) →
    openLoss (s.ev ins).map.passed = 0 ∨ ∃ record, (s.ev ins).map.upcoming? = some record ∧
        record.isSample = true

theorem answered_iff (balanced : (books cfg s).Balanced)
    (noted : ∀ ins, cfg.hasLost (cfg.dev ins) = true → Noted cfg s ins) :
    Answered cfg action s ↔ ¬ Drops cfg (readBy action s) s := by
  have hreading : ∀ ins, readBy action s = some ins → s.phase.reading = some ins := by
    intro ins reads
    unfold readBy at reads
    split at reads
    · exact Phase.reading_of_reads reads
    · cases reads
  constructor
  · rintro answered ⟨ins, reads, hwaits, hupcoming⟩
    by_cases handler : cfg.hasLost (cfg.dev ins) = true
    · obtain ⟨record, hrecord, hkind⟩ := answered ins reads handler
        ((noted ins handler).waits (hreading ins reads) hwaits)
      have htaken := hupcoming record hrecord
      rw [takesLost_eq_isLost record handler, hkind] at htaken
      cases htaken
    · have hfound := balanced.found_reading (hreading ins reads)
      simp only [books, if_neg handler] at hfound
      exact hwaits (List.append_eq_nil_iff.mp hfound.symm).2
  · intro kept ins reads handler hopen
    by_cases hwaits : s.waiting.toList = []
    · rcases (noted ins handler).rests fun _ => hwaits with hnone | hsample
      · exact absurd hnone hopen
      · obtain ⟨record, hrecord, sample⟩ := hsample
        exact ⟨record, hrecord, Record.isLost_of_isSample sample⟩
    · by_contra hnone
      refine kept ⟨ins, reads, hwaits, fun record hrecord => ?_⟩
      by_contra hhanded
      refine hnone ⟨record, hrecord, ?_⟩
      rw [← takesLost_eq_isLost record handler]
      exact eq_false_of_ne_true hhanded

omit [DecidableEq ι] in
theorem Noted.still (noted : Noted cfg s ins) (still : Still s next ins)
    (tracked : ∃ before after, Reader (s.ev ins).map before after)
    (hwaits : next.phase.reading = some ins →
      next.waiting.toList ≠ [] →
      s.phase.reading = some ins ∧ s.waiting.toList ≠ [])
    (hrests : (next.phase.reading = some ins → next.waiting.toList = []) →
      s.phase.reading = some ins →
      s.waiting.toList = []) :
    Noted cfg next ins := by
  obtain ⟨before, after, reader⟩ := tracked
  obtain ⟨more, hnext⟩ := still before after reader
  have hpassed : (next.ev ins).map.passed = (s.ev ins).map.passed := by
    rw [reader.passed, hnext.passed]
  refine ⟨?_, ?_⟩
  · intro reading waiting
    rw [hpassed]
    obtain ⟨hreading, hwaiting⟩ := hwaits reading waiting
    exact noted.waits hreading hwaiting
  · intro resting
    rw [hpassed]
    rcases noted.rests (hrests resting) with hnone | ⟨record, hrecord, sample⟩
    · exact .inl hnone
    · refine .inr ⟨record, ?_, sample⟩
      rw [reader.upcoming?] at hrecord
      rw [hnext.upcoming?, List.head?_append_of_ne_nil _ (by
        rintro rfl
        cases hrecord)]
      exact hrecord

omit [DecidableEq ι] in
theorem Noted.elsewhere (noted : Noted cfg s ins) (still : Still s next ins)
    (tracked : ∃ before after, Reader (s.ev ins).map before after)
    (different : ins ≠ source) (before : s.phase.reading = some source)
    (after : ∀ opened ∈ next.phase.reading, opened = source) :
    Noted cfg next ins := by
  refine noted.still still tracked (fun opened => absurd (after ins opened) different) ?_
  rw [before]
  exact fun _ opened => absurd (Option.some.inj opened).symm different

omit [DecidableEq ι] in
theorem Noted.closes (noted : Noted cfg s ins) (still : Still s next ins)
    (tracked : ∃ before after, Reader (s.ev ins).map before after)
    (after : next.phase.reading = none) (empty : s.waiting.toList = []) :
    Noted cfg next ins := by
  refine noted.still still tracked ?_ (fun _ _ => empty)
  rw [after]
  intro opened
  cases opened

theorem Effect.noted (effect : Effect cfg reads s next) (inv : Delivered cfg s)
    (kept : ¬ Drops cfg reads s) (balanced : (books cfg s).Balanced)
    (handler : cfg.hasLost (cfg.dev ins) = true) (noted : Noted cfg s ins) :
    Noted cfg next ins := by
  have tracked := (inv.tracked ins).reader
  have hclosed : s.phase.reading = none → s.waiting.toList = [] := balanced.closed
  cases effect with
  | quiet calm reading waiting =>
    refine noted.still (calm.still ins) tracked ?_ ?_
    · rw [reading, waiting]
      exact fun hreading hwaiting => ⟨hreading, hwaiting⟩
    · rw [reading, waiting]
      exact id
  | clear calm closed after empty =>
    exact noted.closes (calm.still ins) tracked after (hclosed closed)
  | enter opened calm closed opening waiting =>
    refine noted.still (calm.still ins) tracked ?_ ?_
    · rw [waiting, hclosed closed]
      exact fun _ filled => absurd rfl filled
    · exact fun _ _ => hclosed closed
  | giveBack source record sample passes others reports closed after waiting =>
    by_cases same : ins = source
    · subst same
      obtain ⟨before, rest, hnext, _⟩ := passes.reader
      refine ⟨?_, fun _ => .inr ⟨record, hnext.upcoming?, sample⟩⟩
      rw [after]
      exact fun absurd => nomatch absurd
    · exact noted.closes (others ins same) tracked after (hclosed closed)
  | pass source record plain handed passes reports reading after waiting =>
    by_cases same : ins = source
    · subst same
      obtain ⟨before, rest, reader, hnext⟩ := passes.reader
      rw [takesLost_eq_isLost record handler] at handed
      have hopen : openLoss (next.ev ins).map.passed = openLoss (s.ev ins).map.passed := by
        rw [hnext.passed, openLoss_snoc, reader.passed]
        exact Record.leavesOpen_of_other plain handed _
      refine ⟨fun _ => ?_, fun resting => .inl ?_⟩
      · rw [waiting, hopen]
        exact noted.waits reading
      · rw [waiting] at resting
        rw [hopen]
        rcases noted.rests fun _ => resting after with hnone | hsample
        · exact hnone
        · obtain ⟨upcoming, hupcoming, sample⟩ := hsample
          cases hupcoming.symm.trans reader.upcoming?
          rw [plain] at sample
          cases sample
    · exact noted.elsewhere (passes.others ins same) tracked same reading (by simp [after])
  | take source record id lost payload handler passes reports reading after
      waiting =>
    by_cases same : ins = source
    · subst same
      obtain ⟨before, rest, reader, hnext⟩ := passes.reader
      have hopen : openLoss (next.ev ins).map.passed = lost := by
        rw [hnext.passed, openLoss_snoc, Record.leavesOpen, payload]
      refine ⟨fun _ => ?_, fun resting => .inl ?_⟩
      · rw [hopen, waiting]
        intro filled hzero
        exact filled (by simp [LostRecord.toList, hzero])
      · rw [hopen]
        have hempty := resting after
        rw [waiting] at hempty
        simpa [LostRecord.toList] using hempty
    · exact noted.elsewhere (passes.others ins same) tracked same reading (by simp [after])
  | report source record sample passes reports reading after empty =>
    by_cases same : ins = source
    · subst same
      obtain ⟨before, rest, reader, hnext⟩ := passes.reader
      refine ⟨?_, fun _ => .inl ?_⟩
      · rw [after]
        exact fun absurd => nomatch absurd
      · rw [hnext.passed, openLoss_snoc]
        exact Record.leavesOpen_of_isSample sample _
    · exact noted.elsewhere (passes.others ins same) tracked same reading (by simp [after])
  | leave source calm exhausted reading after waiting gone draining =>
    exact noted.closes (calm.still ins) tracked after (waiting_of_exhausted kept exhausted)
  | discard source calm exhausted reading after empty =>
    exact noted.closes (calm.still ins) tracked after (waiting_of_exhausted kept exhausted)

end Books

section Runs

variable [DecidableEq ι] {cfg : Config ι δ} {s next last : State ι δ} {ins : ι}

def AllReported (cfg : Config ι δ) (s : State ι δ) : Prop :=
  ∀ ins, cfg.hasLost (cfg.dev ins) = true → lostReports ins s.out = lostFound s ins

def lostSum (records : List LostRecord) : Nat :=
  (records.map LostRecord.lost).sum

def CountsAddUp (cfg : Config ι δ) (s : State ι δ) : Prop :=
  ∀ ins, cfg.hasLost (cfg.dev ins) = true →
    lostSum (lostReports ins s.out) = lostSum (lostFound s ins)

theorem CountsAddUp.not_short (adds : CountsAddUp cfg s) (ins : ι) :
    ¬ (books cfg s).Short LostRecord.lost ins := by
  unfold Data.Slot.Short
  by_cases handler : cfg.hasLost (cfg.dev ins) = true
  · simp only [books, if_pos handler]
    exact Nat.not_lt_of_le (Nat.le_of_eq (adds ins handler).symm)
  · simp [books, handler]

structure Kept (cfg : Config ι δ) (s : State ι δ) : Prop where
  tallied : Tallied cfg s
  balanced : (books cfg s).Balanced
  noted : ∀ ins, cfg.hasLost (cfg.dev ins) = true → Noted cfg s ins

theorem Kept.allReported (kept : Kept cfg s) (hidle : s.phase = .idle) :
    AllReported cfg s := by
  intro ins handler
  have hclosed : (books cfg s).reading = none := by simp [books, hidle, Phase.reading]
  have hfound := kept.balanced.found_of_closed hclosed ins
  simp only [books, if_pos handler] at hfound
  exact hfound.symm

theorem State.init_kept (cfg : Config ι δ) (mask flush shared : ι → Nat) :
    Kept cfg (State.init fun ins =>
      Mmap.mapped false (mask ins) (flush ins) (shared ins)) where
  tallied := by
    refine ⟨State.init_delivered cfg mask flush shared, ?_, ?_⟩
    · rintro ins (member | member) <;> cases member
    · exact fun filled => absurd rfl filled
  balanced := by
    refine .of_closed rfl rfl fun ins => ?_
    simp [books, lostFound, Mmap.passed, passed, State.init, Mmap.mapped, lostRecords, lostReports]
  noted := by
    intro ins _
    refine ⟨?_, fun _ => .inl rfl⟩
    intro listed
    cases listed

theorem Tallied.reading_listed (tallied : Tallied cfg s) (source : ι)
    (reading : s.phase.reading = some source) :
    source ∈ cfg.heapEventList.toFinset := by
  rw [List.mem_toFinset]
  apply tallied.listed
  cases hphase : s.phase with
  | retry opened lost todo =>
    rw [hphase] at reading
    cases reading
    exact .inr (by simp [Phase.todo])
  | consume opened flag =>
    rw [hphase] at reading
    cases reading
    exact .inl (tallied.delivered.current source (by rw [hphase]; rfl))
  | read opened flag =>
    rw [hphase] at reading
    cases reading
    exact .inl (tallied.delivered.current source (by rw [hphase]; rfl))
  | _ => simp [hphase, Phase.reading] at reading

variable [DecidableEq δ]

theorem Kept.step (kept : Kept cfg s) (answered : Answered cfg action s)
    (hstep : step cfg action s = some next) : Kept cfg next := by
  have inv := kept.tallied.delivered
  have effect := step_effect kept.tallied hstep
  have hkept := (answered_iff kept.balanced kept.noted).mp answered
  obtain ⟨flag, hmove, hflag⟩ := effect.move inv
  rw [hflag hkept] at hmove
  exact ⟨step_tallied kept.tallied hstep, hmove.balanced kept.balanced,
    fun ins handler => effect.noted inv hkept kept.balanced handler (kept.noted ins handler)⟩

variable {actions : List (Action ι)}

theorem run_behind (tallied : Tallied cfg s)
    (behind : (books cfg s).Behind LostRecord.lost cfg.heapEventList.toFinset)
    (hrun : Data.run (step cfg) actions s = some last) :
    (books cfg last).Behind LostRecord.lost cfg.heapEventList.toFinset := by
  have preserved : ∀ action state next, Tallied cfg state ∧ (books cfg state).Behind LostRecord.lost
          cfg.heapEventList.toFinset →
        step cfg action state = some next →
        Tallied cfg next ∧ (books cfg next).Behind LostRecord.lost
          cfg.heapEventList.toFinset := by
    rintro action state next ⟨hstate, hbehind⟩ hstep
    obtain ⟨flag, hmove, _⟩ := (step_effect hstate hstep).move hstate.delivered
    exact ⟨step_tallied hstate hstep, hmove.behind hstate.reading_listed hbehind⟩
  exact (Data.run_preserves (fun state => Tallied cfg state ∧ (books cfg state).Behind
    LostRecord.lost cfg.heapEventList.toFinset) preserved ⟨tallied, behind⟩ hrun).2

theorem run_short (tallied : Tallied cfg s)
    (short : (books cfg s).Short LostRecord.lost ins) (gone : ins ∉ s.heap)
    (hphase : s.phase.draining = true ∨ s.phase = .idle)
    (hrun : Data.run (step cfg) actions s = some last)
    (hidle : last.phase = .idle) :
    ∃ before after middle, actions = before ++ after ∧
      Data.run (step cfg) before s = some middle ∧
      middle.phase = .idle ∧
      (books cfg middle).Short LostRecord.lost ins := by
  induction actions generalizing s with
  | nil =>
    cases hrun
    exact ⟨[], [], last, rfl, rfl, hidle, short⟩
  | cons action rest ih =>
    rcases hphase with hdraining | hrests
    · obtain ⟨next, hstep, hrest⟩ := Data.run_cons.mp hrun
      obtain ⟨flag, hmove, _⟩ := (step_effect tallied hstep).move tallied.delivered
      have hother : (books cfg s).reading ≠ some ins := by
        intro reading
        refine gone (tallied.delivered.current ins ?_)
        rw [← (Phase.of_draining hdraining).1]
        exact reading
      have hfollows : Follows s next := by
        rcases step_follows hstep with begins | follows
        · have hresting := begins.resting
          rw [(Phase.of_draining hdraining).2.2] at hresting
          cases hresting
        · exact follows
      have hgone : ins ∉ next.heap := by
        intro member
        rcases hfollows.sources ins (.inl member) with inside | inside
        · exact gone inside
        · rw [(Phase.of_draining hdraining).2.1] at inside
          cases inside
      obtain ⟨before, after, middle, rfl, hbefore, hfound⟩ := ih (step_tallied tallied hstep)
        (hmove.short hother short) hgone (hfollows.draining hdraining) hrest
      exact ⟨action :: before, after, middle, rfl, Data.run_cons.mpr ⟨next, hstep, hbefore⟩, hfound⟩
    · exact ⟨[], action :: rest, _, rfl, rfl, hrests, short⟩

theorem Kept.run (kept : Kept cfg s)
    (answered : ∀ before action after state, actions =
        before ++ action :: after →
      Data.run (Order.step cfg) before s = some state →
      Answered cfg action state)
    (hrun : Data.run (Order.step cfg) actions s = some last) :
    Kept cfg last := by
  induction actions generalizing s with
  | nil =>
    cases hrun
    exact kept
  | cons action rest ih =>
    obtain ⟨next, hstep, hrest⟩ := Data.run_cons.mp hrun
    refine ih (kept.step (answered [] action rest s rfl rfl) hstep) ?_ hrest
    intro before later after state hrest hbefore
    exact answered (action :: before) later after state (by rw [hrest]; rfl)
      (Data.run_cons.mpr ⟨next, hstep, hbefore⟩)

theorem Kept.run_reported (kept : Kept cfg s)
    (answered : ∀ before action after state,
      actions = before ++ action :: after →
      Data.run (Order.step cfg) before s = some state →
      Answered cfg action state) :
    ∀ before after state, actions = before ++ after →
      Data.run (Order.step cfg) before s = some state →
      state.phase = .idle →
      AllReported cfg state := by
  intro before after state hsplit hbefore hphase
  refine (kept.run ?_ hbefore).allReported hphase
  intro front action back other hfront
  refine answered front action (back ++ after) other ?_
  rw [hsplit, hfront]
  simp

theorem Kept.run_answered (kept : Kept cfg s)
    (hrun : Data.run (Order.step cfg) actions s = some last)
    (hidle : last.phase = .idle)
    (adds : ∀ before after state, actions = before ++ after →
      Data.run (Order.step cfg) before s = some state →
      state.phase = .idle →
      CountsAddUp cfg state) :
    ∀ before action after state, actions = before ++ action :: after →
      Data.run (Order.step cfg) before s = some state →
      Answered cfg action state := by
  induction actions generalizing s with
  | nil =>
    intro before action after state hsplit
    simp at hsplit
  | cons first rest ih =>
    obtain ⟨next, hstep, hrest⟩ := Data.run_cons.mp hrun
    have adds_next : ∀ before after state, rest = before ++ after →
        Data.run (Order.step cfg) before next = some state →
        state.phase = .idle → CountsAddUp cfg state := by
      intro before after state hsplit hbefore
      exact adds (first :: before) after state (by rw [hsplit]; rfl)
        (Data.run_cons.mpr ⟨next, hstep, hbefore⟩)
    have hfirst : Answered cfg first s := by
      rw [answered_iff kept.balanced kept.noted]
      intro drops
      have hnext := step_tallied kept.tallied hstep
      rcases (step_effect kept.tallied hstep).careless kept.tallied.delivered
        drops kept.balanced kept.tallied.reading_listed with
        behind | ⟨ins, short, gone, hdraining⟩
      · have hend := adds_next rest [] last (by simp) hrest hidle
        exact Data.Slot.not_behind (fun ins _ => hend.not_short ins) (run_behind hnext behind hrest)
      · obtain ⟨before, after, middle, hsplit, hbefore, hrests, hshort⟩ :=
          run_short hnext short gone (.inl hdraining) hrest hidle
        exact (adds_next before after middle hsplit hbefore hrests).not_short ins hshort
    intro before action after state hsplit hbefore
    cases before with
    | nil =>
      cases hsplit
      cases hbefore
      exact hfirst
    | cons head tail =>
      simp only [List.cons_append, List.cons.injEq] at hsplit
      obtain ⟨rfl, hsplit⟩ := hsplit
      obtain ⟨middle, hmiddle, htail⟩ := Data.run_cons.mp hbefore
      cases hstep.symm.trans hmiddle
      exact ih (kept.step hfirst hstep) hrest adds_next tail action after state hsplit htail

end Runs

/-- Over every run on non-overwrite buffers that ends between two calls: each
lost record was reported exactly once for the buffer it was read from whenever a
call had returned, equivalently the counts added up then, if and only if every
step that read on behind a lost record found a record there that was not another
lost record. -/
theorem lost_reported_iff_answered [DecidableEq ι] [DecidableEq δ]
    (cfg : Config ι δ) (mask flush shared : ι → Nat) (actions : List (Action ι))
    (last : State ι δ)
    (hrun : Data.run (step cfg) actions (State.init fun ins =>
      Mmap.mapped false (mask ins) (flush ins) (shared ins)) = some last)
    (hidle : last.phase = .idle) :
    ((∀ before after s, actions = before ++ after →
        Data.run (step cfg) before (State.init fun ins =>
          Mmap.mapped false (mask ins) (flush ins) (shared ins)) = some s →
        s.phase = .idle →
        AllReported cfg s) ↔
        ∀ before action after s, actions = before ++ action :: after →
          Data.run (step cfg) before (State.init fun ins =>
            Mmap.mapped false (mask ins) (flush ins) (shared ins)) = some s →
          Answered cfg action s) ∧
    ((∀ before after s, actions = before ++ after →
        Data.run (step cfg) before (State.init fun ins =>
          Mmap.mapped false (mask ins) (flush ins) (shared ins)) = some s →
        s.phase = .idle →
        CountsAddUp cfg s) ↔
        ∀ before action after s, actions = before ++ action :: after →
          Data.run (step cfg) before (State.init fun ins =>
            Mmap.mapped false (mask ins) (flush ins) (shared ins)) = some s →
          Answered cfg action s) := by
  have kept := State.init_kept cfg mask flush shared
  have hadds : ∀ s, AllReported cfg s → CountsAddUp cfg s :=
    fun s reported ins handler => congrArg lostSum (reported ins handler)
  refine ⟨⟨fun reported => ?_, kept.run_reported⟩, ⟨fun adds => ?_, fun answered => ?_⟩⟩
  · refine kept.run_answered hrun hidle ?_
    intro before after s hsplit hbefore hphase
    exact hadds s (reported before after s hsplit hbefore hphase)
  · exact kept.run_answered hrun hidle adds
  · intro before after s hsplit hbefore hphase
    exact hadds s (kept.run_reported answered before after s hsplit hbefore hphase)

def lostConfig : Config Bool Unit :=
  { pairConfig with hasLost := fun _ => true }

def answeredActions : List (Action Bool) :=
  [.arrive true (.short 1 (.sample 10)), .arrive true (.short 2 (.lost 7 5)),
    .arrive true (.short 1 (.sample 20)),
    .call none 0] ++ List.replicate 14 (.advance true)

theorem lost_reported_iff_answered_single :
    ∃ last : State Bool Unit, Data.run (step lostConfig) answeredActions
        (State.init fun _ => Mmap.mapped false 4095 0 0) = some last ∧
      last.phase = .idle ∧
      lostReports true last.out = [⟨7, 5⟩] ∧
      ((∀ before after s, answeredActions = before ++ after →
          Data.run (step lostConfig) before
            (State.init fun _ => Mmap.mapped false 4095 0 0) = some s →
          s.phase = .idle →
          AllReported lostConfig s) ↔
          ∀ before action after s, answeredActions = before ++ action :: after →
            Data.run (step lostConfig) before
              (State.init fun _ => Mmap.mapped false 4095 0 0) = some s →
            Answered lostConfig action s) := by
  refine ⟨_, (Option.some_get ?_).symm, ?_, ?_, (lost_reported_iff_answered lostConfig
    (fun _ => 4095) (fun _ => 0) (fun _ => 0) answeredActions _ (Option.some_get ?_).symm ?_).1⟩
  all_goals decide +kernel

def foreignActions : List (Action Bool) :=
  [.arrive true (.short 1 (.sample 10)), .arrive true (.short 2 (.lost 7 5)),
    .arrive true (.short 3 .other),
    .arrive false (.short 1 (.sample 11)),
    .arrive false (.short 1 (.sample 12)),
    .call none 0] ++ List.replicate 12 (.advance true) ++
    List.replicate 8 (.advance false)

/-- The loss of the first buffer is reported for the second one. -/
theorem lost_reported_for_other_buffer :
    ∃ last : State Bool Unit, Data.run (step lostConfig) foreignActions
        (State.init fun _ => Mmap.mapped false 4095 0 0) = some last ∧
      last.phase = .idle ∧
      lostFound last true = [⟨7, 5⟩] ∧
      lostReports true last.out = [] ∧
      lostFound last false = [] ∧
      lostReports false last.out = [⟨7, 5⟩] ∧
      ¬ CountsAddUp lostConfig last := by
  refine ⟨_, (Option.some_get ?_).symm, ?_, ?_, ?_, ?_, ?_,
    fun adds => absurd (adds true rfl) ?_⟩
  all_goals decide +kernel

end PerfProf.Order
