import PerfProf.Order.Process

namespace PerfProf.Order

variable {ι δ : Type}

def Output.sampleTime : Output ι → Option Nat
  | .record _ _ sample _ =>
    match sample.payload with
    | .sample time => some time
    | _ => none
  | .lost _ _ _ _ => none

def sampleTimes (out : List (Output ι)) : List Nat :=
  out.filterMap Output.sampleTime

theorem sampleTimes_append (out : List (Output ι)) (output : Output ι) :
    sampleTimes (out ++ [output]) =
      sampleTimes out ++ output.sampleTime.toList := by
  unfold sampleTimes
  cases hsample : output.sampleTime <;> simp [hsample]

def Phase.todo : Phase ι → List ι
  | .heapInit todo => todo
  | .retry ins _ todo => ins :: todo
  | _ => []

def Later (cfg : Config ι δ) (s : State ι δ) (except : ι → Prop) : Prop :=
  ∀ other ∈ s.heap, ¬ except other → s.heapPoppedTime cfg.mainDev ≤ (s.ev other).time

def Behind (cfg : Config ι δ) (s : State ι δ) (ins : ι) : Prop :=
  (s.ev ins).eventMonoTime = s.heapPoppedTime cfg.mainDev ∧
    Later cfg s (· = ins)

def Pending (cfg : Config ι δ) (s : State ι δ) : Phase ι → Prop
  | .idle | .target _ _ | .unwind => True
  | .heapInit _ | .retry _ _ _ => Later cfg s fun _ => False
  | .loop => Later cfg s (fun _ => False) ∨ ∃ ins, Behind cfg s ins
  | .consume ins _ | .read ins _ => Behind cfg s ins

structure Ordered (cfg : Config ι δ) (s : State ι δ) : Prop where
  sorted : (sampleTimes s.out).Pairwise (· ≤ ·)
  delivered : ∀ time ∈ sampleTimes s.out, time ≤ s.heapPoppedTime cfg.mainDev
  unordered : ∀ dev, s.nrUnorderedEvents dev = 0
  mono : ∀ ins, (s.ev ins).eventMonoTime ≤ s.heapPoppedTime cfg.mainDev
  sampled : ∀ ins ∈ s.heap, ∃ event, (s.ev ins).event = some event ∧
    event.2.payload = .sample (s.ev ins).time
  nodup : (s.heap ++ s.phase.todo).Nodup
  pending : Pending cfg s s.phase

theorem pending_congr {cfg : Config ι δ} {s next : State ι δ} (phase : Phase ι)
    (hpopped : next.heapPoppedTime = s.heapPoppedTime)
    (hheap : next.heap = s.heap)
    (htime : ∀ ins, (next.ev ins).time = (s.ev ins).time)
    (hmono : ∀ ins, (next.ev ins).eventMonoTime = (s.ev ins).eventMonoTime) :
    Pending cfg next phase ↔ Pending cfg s phase := by
  cases phase <;> simp [Pending, Behind, Later, hheap, hpopped, htime, hmono]

theorem Ordered.of_same_popped {cfg : Config ι δ} {s next : State ι δ}
    (ordered : Ordered cfg s) (hout : sampleTimes next.out = sampleTimes s.out)
    (hpopped : next.heapPoppedTime = s.heapPoppedTime)
    (hunordered : next.nrUnorderedEvents = s.nrUnorderedEvents)
    (hmono : ∀ ins, (next.ev ins).eventMonoTime = (s.ev ins).eventMonoTime)
    (hsampled : ∀ ins ∈ next.heap, ∃ event, (next.ev ins).event = some event ∧
      event.2.payload = .sample (next.ev ins).time)
    (hnodup : (next.heap ++ next.phase.todo).Nodup)
    (hpending : Pending cfg next next.phase) : Ordered cfg next where
  sorted := by rw [hout]; exact ordered.sorted
  delivered := by rw [hout, hpopped]; exact ordered.delivered
  unordered := by rw [hunordered]; exact ordered.unordered
  mono := by
    intro ins
    rw [hmono, hpopped]
    exact ordered.mono ins
  sampled := hsampled
  nodup := hnodup
  pending := hpending

def MmapEvent.seen (ev : MmapEvent) := (ev.event, ev.time, ev.eventMonoTime)

def State.seen (s : State ι δ) :=
  (sampleTimes s.out, s.heapPoppedTime, s.nrUnorderedEvents, s.heap,
    fun ins => (s.ev ins).seen)

theorem Ordered.of_same_seen {cfg : Config ι δ} {s next : State ι δ}
    (ordered : Ordered cfg s) (hseen : next.seen = s.seen)
    (hnodup : (s.heap ++ next.phase.todo).Nodup)
    (hpending : Pending cfg s next.phase) : Ordered cfg next := by
  simp only [State.seen, MmapEvent.seen, Prod.mk.injEq, funext_iff, forall_and] at hseen
  obtain ⟨hout, hpopped, hunordered, hheap, hevent, htime, hmono⟩ := hseen
  rw [← funext_iff] at hpopped hunordered
  apply ordered.of_same_popped hout hpopped hunordered hmono
  · intro ins member
    rw [hheap] at member
    rw [hevent, htime]
    exact ordered.sampled ins member
  · rw [hheap]
    exact hnodup
  · exact (pending_congr _ hpopped hheap htime hmono).mpr hpending

theorem State.init_ordered (cfg : Config ι δ) (map : ι → Mmap) :
    Ordered cfg (State.init map) where
  sorted := by simp [State.init, sampleTimes]
  delivered := by simp [State.init, sampleTimes]
  unordered := fun _ => rfl
  mono := fun _ => Nat.le_refl _
  sampled := by simp [State.init]
  nodup := by simp [State.init, Phase.todo]
  pending := trivial

section Steps

variable {cfg : Config ι δ} {s : State ι δ}

section

variable (ordered : Ordered cfg s)

include ordered

theorem Ordered.goto (hnodup : (s.heap ++ phase.todo).Nodup)
    (hpending : Pending cfg s phase) : Ordered cfg (s.goto phase) :=
  ordered.of_same_seen rfl hnodup hpending

theorem Ordered.heap_nodup : s.heap.Nodup :=
  (List.nodup_append.mp ordered.nodup).1

theorem Ordered.done_nodup {phase : Phase ι} (htodo : phase.todo = []) :
    (s.heap ++ phase.todo).Nodup := by
  rw [htodo, List.append_nil]
  exact ordered.heap_nodup

theorem Ordered.goto_idle : Ordered cfg (s.goto .idle) :=
  ordered.goto (ordered.done_nodup rfl) trivial

theorem Ordered.stop (reason : BreakReason) : Ordered cfg (s.stop reason) :=
  ordered.of_same_seen rfl (ordered.done_nodup rfl) trivial

theorem Ordered.beginHeap (target : Option ι) (targetEnd targetTm : Nat) :
    Ordered cfg (beginHeap cfg target targetEnd targetTm s) := by
  refine ordered.of_same_popped rfl rfl rfl (fun _ => rfl) ?_ ?_ ?_
  · simp [Order.beginHeap]
  · simpa [Order.beginHeap, Phase.todo] using cfg.heapEventList_nodup
  · simp [Order.beginHeap, Pending, Later]

theorem Ordered.targetStep (ins : ι) (targetTm : Nat) :
    Ordered cfg (targetStep cfg ins targetTm s) := by
  unfold Order.targetStep
  split
  · exact ordered.goto_idle
  · exact ordered.beginHeap _ _ _

theorem Ordered.emit (other : output.sampleTime = none) :
    Ordered cfg (s.emit output) :=
  ordered.of_same_seen (by simp [State.seen, State.emit, sampleTimes_append, other])
    ordered.nodup ordered.pending

theorem Ordered.emit_record {record : Record}
    (hsample : record.isSample = false) :
    Ordered cfg (s.emit (.record ins position record writable)) := by
  apply ordered.emit
  cases hpayload : record.payload <;> simp_all [Output.sampleTime, Record.isSample]

theorem Ordered.reportLost (ins : ι) (lost : LostRecord) :
    Ordered cfg (reportLost s ins lost) := by
  unfold Order.reportLost
  split
  · exact ordered
  · exact ordered.emit rfl

theorem Ordered.countLost [DecidableEq δ] (dev : δ) :
    Ordered cfg (s.countLost dev) :=
  ordered.of_same_seen rfl ordered.nodup ordered.pending

theorem Ordered.countFixed [DecidableEq δ] (dev : δ) :
    Ordered cfg (s.countFixed dev) :=
  ordered.of_same_seen rfl ordered.nodup ordered.pending

theorem Ordered.flushLost (ins : ι) : Ordered cfg (flushLost ins s) := by
  unfold Order.flushLost
  split
  · exact ordered
  · have hreported := ordered.reportLost ins s.lost
    exact hreported.of_same_seen rfl hreported.nodup hreported.pending

end

variable {needBreak : Bool} {ins : ι} {ev : MmapEvent} {record : Record}
  {position : Nat}

theorem Ordered.resume (ordered : Ordered cfg s)
    (hpending : Pending cfg s .loop) :
    Ordered cfg (s.goto (if needBreak then .unwind else .loop)) := by
  cases needBreak with
  | true => exact ordered.goto (ordered.done_nodup rfl) trivial
  | false => exact ordered.goto (ordered.done_nodup rfl) hpending

theorem nodup_skip (hnodup : (heap ++ ins :: todo).Nodup) :
    (heap ++ todo).Nodup := by
  have hsublist : (heap ++ todo).Sublist (heap ++ ins :: todo) :=
    (List.sublist_cons_self ins todo).append_left heap
  exact hnodup.sublist hsublist

theorem Ordered.later_of_retry (ordered : Ordered cfg s)
    (hphase : s.phase = .retry ins lost todo) : Later cfg s fun _ => False := by
  simpa [hphase, Pending] using ordered.pending

theorem nodup_fresh (hnodup : (heap ++ ins :: todo).Nodup) : ins ∉ heap := by
  intro member
  exact (List.nodup_append.mp hnodup).2.2 ins member ins (by simp) rfl

theorem Ordered.push (ordered : Ordered cfg s)
    (htodo : s.phase.todo = ins :: todo) (hpending : Later cfg s fun _ => False)
    (hevent : (s.ev ins).event = some event)
    (hpayload : event.2.payload = .sample (s.ev ins).time)
    (htime : s.heapPoppedTime cfg.mainDev ≤ (s.ev ins).time) :
    Ordered cfg ((s.push ins).goto (.heapInit todo)) := by
  have hnodup : (s.heap ++ ins :: todo).Nodup := htodo ▸ ordered.nodup
  refine ordered.of_same_popped rfl rfl rfl (fun _ => rfl) ?_ ?_ ?_
  · intro other member
    rcases List.mem_append.mp member with member | member
    · exact ordered.sampled other member
    · rw [List.mem_singleton.mp member]
      exact ⟨event, hevent, hpayload⟩
  · simpa [State.push, State.goto, Phase.todo] using hnodup
  · intro other member _
    rcases List.mem_append.mp member with member | member
    · exact hpending other member id
    · rw [List.mem_singleton.mp member]
      exact htime

variable [DecidableEq ι]

@[simp] theorem pending_setMap (ins : ι) (map : Mmap) (phase : Phase ι) :
    Pending cfg (s.setMap ins map) phase ↔ Pending cfg s phase :=
  pending_congr phase rfl rfl (s.setMap_time ins · map) (s.setMap_eventMonoTime ins · map)

section

variable (ordered : Ordered cfg s)

include ordered

theorem Ordered.setEvent_same (hsame : ev.seen = (s.ev ins).seen) :
    Ordered cfg (s.setEvent ins ev) := by
  have hseen := funext (State.setEvent_field s MmapEvent.seen ins ev hsame)
  refine ordered.of_same_seen ?_ ordered.nodup ordered.pending
  rw [State.seen, hseen]
  rfl

theorem Ordered.setMap (ins : ι) (map : Mmap) :
    Ordered cfg (s.setMap ins map) :=
  ordered.setEvent_same rfl

theorem Ordered.orderProcess (target : Option ι) (targetTm : Nat) :
    Ordered cfg (orderProcess cfg target targetTm s) := by
  cases target with
  | none => exact ordered.beginHeap none 0 targetTm
  | some ins =>
    have hmap := ordered.setMap ins (s.ev ins).map.readInit.1
    simp only [Order.orderProcess]
    split
    · exact hmap.goto (hmap.done_nodup rfl) trivial
    · exact hmap

theorem Ordered.mmapEventInit (hphase : s.phase = .heapInit (ins :: todo)) :
    Ordered cfg (mmapEventInit ins todo s) := by
  have hnodup : (s.heap ++ ins :: todo).Nodup := by simpa [hphase, Phase.todo] using ordered.nodup
  have hrest := nodup_skip hnodup
  have hpending : Later cfg s fun _ => False := by simpa [hphase, Pending] using ordered.pending
  have hmap := ordered.setMap ins (s.ev ins).map.readInit.1
  simp only [Order.mmapEventInit]
  split
  · exact ordered.goto hrest hpending
  · split
    · exact hmap.goto hnodup ((pending_setMap ins _ _).mpr hpending)
    · exact hmap.goto hrest ((pending_setMap ins _ _).mpr hpending)

theorem Ordered.setEvent_fresh (hphase : s.phase = .retry ins lost todo)
    (hmono : ev.eventMonoTime = (s.ev ins).eventMonoTime) :
    Ordered cfg (s.setEvent ins ev) := by
  have hnodup : (s.heap ++ ins :: todo).Nodup := by simpa [hphase, Phase.todo] using ordered.nodup
  have hfresh := nodup_fresh hnodup
  have hother : ∀ other ∈ s.heap, (s.setEvent ins ev).ev other = s.ev other := by
    intro other member
    exact State.setEvent_other s ev (by rintro rfl; exact hfresh member)
  refine ordered.of_same_popped rfl rfl rfl
    (State.setEvent_field s (·.eventMonoTime) ins ev hmono) ?_ ordered.nodup ?_
  · intro other member
    rw [hother other member]
    exact ordered.sampled other member
  · have hpending := ordered.pending
    change Pending cfg (s.setEvent ins ev) s.phase
    rw [hphase] at hpending ⊢
    intro other member excepted
    rw [hother other member]
    exact hpending other member excepted

end

theorem withTime_payload (fixed : Nat)
    (hpayload : record.payload = .sample time) :
    (record.withTime fixed).payload = .sample fixed := by
  simp [Record.withTime, hpayload]

theorem Ordered.consumeStep (ordered : Ordered cfg s)
    (hphase : s.phase = .consume ins needBreak) :
    Ordered cfg (consumeStep cfg ins needBreak s) := by
  have hpending := ordered.pending
  rw [hphase] at hpending
  unfold Order.consumeStep
  dsimp only
  generalize consumeMap cfg ins (s.ev ins) = map
  have hnodup := ordered.done_nodup (show (Phase.read ins needBreak).todo = [] from rfl)
  split
  · exact (ordered.setMap ins map).of_same_seen rfl hnodup
      ((pending_setMap ins map (.read ins true)).mpr hpending)
  · exact (ordered.setMap ins map).goto hnodup
      ((pending_setMap ins map (.read ins needBreak)).mpr hpending)

theorem Ordered.setEvent_read (ordered : Ordered cfg s)
    (hphase : s.phase = .read ins needBreak)
    (hmono : ev.eventMonoTime = (s.ev ins).eventMonoTime)
    (hevent : ev.event = some event)
    (hpayload : event.2.payload = .sample ev.time) :
    Ordered cfg (s.setEvent ins ev) := by
  refine ordered.of_same_popped rfl rfl rfl
    (State.setEvent_field s (·.eventMonoTime) ins ev hmono) ?_ ordered.nodup ?_
  · intro other member
    by_cases same : other = ins
    · rw [same, State.setEvent_self]
      exact ⟨event, hevent, hpayload⟩
    · rw [State.setEvent_other s ev same]
      exact ordered.sampled other member
  · have hpending := ordered.pending
    change Pending cfg (s.setEvent ins ev) s.phase
    rw [hphase] at hpending ⊢
    refine ⟨?_, ?_⟩
    · rw [State.setEvent_self, hmono]
      exact hpending.1
    · intro other member different
      rw [State.setEvent_other s ev different]
      exact hpending.2 other member different

theorem Ordered.pop (ordered : Ordered cfg s)
    (hphase : s.phase = .read ins needBreak) :
    Ordered cfg (s.pop ins) ∧ Pending cfg (s.pop ins) .loop := by
  have hpending := ordered.pending
  rw [hphase] at hpending
  refine ⟨ordered.of_same_popped rfl rfl rfl (fun _ => rfl) ?_ ?_ ?_, .inl ?_⟩
  · intro other member
    exact ordered.sampled other (List.mem_of_mem_erase member)
  · simpa [State.pop, hphase, Phase.todo] using ordered.heap_nodup.erase ins
  · change Pending cfg (s.pop ins) s.phase
    rw [hphase]
    refine ⟨hpending.1, ?_⟩
    intro other member
    exact hpending.2 other (List.mem_of_mem_erase member)
  · intro other member _
    have hdifferent := (ordered.heap_nodup.mem_erase_iff.mp member)
    exact hpending.2 other hdifferent.2 hdifferent.1

variable [DecidableEq δ]

theorem fixAtInit_sampled (cfg : Config ι δ) (s : State ι δ) (ins : ι)
    (ev : MmapEvent) (hevent : ev.event = some (position, record))
    (hpayload : record.payload = .sample ev.time) :
    ∃ event, ((fixAtInit cfg ins ev s).ev ins).event = some event ∧
      event.2.payload = .sample ((fixAtInit cfg ins ev s).ev ins).time ∧
      s.heapPoppedTime cfg.mainDev ≤
        ((fixAtInit cfg ins ev s).ev ins).time := by
  unfold fixAtInit
  dsimp only
  split
  · simp only [State.countFixed, State.setEvent_self, fixOutOfOrder, hevent]
    exact ⟨_, rfl, withTime_payload _ hpayload, Nat.le_refl _⟩
  · simp only [State.setEvent_self]
    exact ⟨_, hevent, hpayload, by omega⟩

theorem Ordered.fixAtInit (ordered : Ordered cfg s)
    (hphase : s.phase = .retry ins lost todo)
    (hmono : ev.eventMonoTime = (s.ev ins).eventMonoTime) :
    Ordered cfg (fixAtInit cfg ins ev s) := by
  unfold Order.fixAtInit
  dsimp only
  split
  · have hev : Ordered cfg (s.setEvent ins (fixOutOfOrder ev (s.heapPoppedTime cfg.mainDev))) :=
      ordered.setEvent_fresh hphase hmono
    exact hev.countFixed (cfg.dev ins)
  · exact ordered.setEvent_fresh hphase hmono

@[simp] theorem fixAtInit_phase (ins : ι) (ev : MmapEvent) :
    (fixAtInit cfg ins ev s).phase = s.phase := by
  unfold fixAtInit
  dsimp only
  split <;> rfl

@[simp] theorem fixAtInit_heapPoppedTime (ins : ι) (ev : MmapEvent) :
    (fixAtInit cfg ins ev s).heapPoppedTime = s.heapPoppedTime := by
  unfold fixAtInit
  dsimp only
  split <;> rfl

theorem Ordered.mmapEventRetry (ordered : Ordered cfg s)
    (hphase : s.phase = .retry ins lost todo) :
    Ordered cfg (mmapEventRetry cfg ins lost todo s) := by
  have htodo : s.phase.todo = ins :: todo := by rw [hphase]; rfl
  have hnodup : (s.heap ++ ins :: todo).Nodup := htodo ▸ ordered.nodup
  have hpending := ordered.later_of_retry hphase
  unfold Order.mmapEventRetry
  rcases (s.ev ins).map.readEvent with ⟨map, _ | ⟨position, record, writable⟩⟩
  · exact (ordered.setMap ins map.readDone).goto (nodup_skip hnodup)
      ((pending_setMap ins _ (.heapInit todo)).mpr hpending)
  · dsimp only
    split
    · rename_i time hpayload
      have hfixed : Ordered cfg (Order.fixAtInit cfg ins
          ((s.ev ins).readAhead map position record time writable) s) :=
        ordered.fixAtInit hphase rfl
      obtain ⟨event, hevent, hsample, htime⟩ :=
        fixAtInit_sampled cfg s ins ((s.ev ins).readAhead map position record time writable)
          rfl hpayload
      have hreported := hfixed.reportLost ins lost
      have hretry := hphase
      rw [← fixAtInit_phase ins ((s.ev ins).readAhead map position record time writable),
        ← reportLost_phase _ ins lost] at hretry
      apply hreported.push
      · rw [hretry]
        rfl
      · exact hreported.later_of_retry hretry
      · rw [reportLost_ev]
        exact hevent
      · rw [reportLost_ev]
        exact hsample
      · rw [reportLost_ev, reportLost_heapPoppedTime, fixAtInit_heapPoppedTime]
        exact htime
    · rename_i id count hpayload
      have hlost := (ordered.countLost (cfg.dev ins)).setMap ins map.consume
      have hlater : Pending cfg ((s.countLost (cfg.dev ins)).setMap ins map.consume)
          (.retry ins lost todo) := (pending_setMap ins _ _).mpr hpending
      split
      · exact hlost.goto hnodup hlater
      · exact (hlost.emit_record (by simp [Record.isSample, hpayload])).goto hnodup hlater
    · rename_i hpayload
      have hmap := ordered.setMap ins map.consume
      exact (hmap.emit_record (by simp [Record.isSample, hpayload])).goto hnodup
        ((pending_setMap ins _ (.retry ins lost todo)).mpr hpending)

section

variable (cfg s)

theorem keepMono_time (ins : ι) (ev : MmapEvent) :
    ((keepMono cfg ins ev s).ev ins).time = max ev.time ev.eventMonoTime ∧
    ((keepMono cfg ins ev s).ev ins).eventMonoTime =
      max ev.time ev.eventMonoTime := by
  unfold keepMono
  split
  · simp only [State.countFixed, State.setEvent_self, fixOutOfOrder]
    omega
  · simp only [State.setEvent_self]
    omega

theorem keepMono_event (ins : ι) (hevent : ev.event = some (position, record))
    (hpayload : record.payload = .sample ev.time) :
    ∃ event, ((keepMono cfg ins ev s).ev ins).event = some event ∧
      event.2.payload = .sample ((keepMono cfg ins ev s).ev ins).time := by
  unfold keepMono
  split
  · simp only [State.countFixed, State.setEvent_self, fixOutOfOrder, hevent]
    exact ⟨_, rfl, withTime_payload _ hpayload⟩
  · simp only [State.setEvent_self]
    exact ⟨_, hevent, hpayload⟩

theorem keepMono_other (ev : MmapEvent) (different : other ≠ ins) :
    (keepMono cfg ins ev s).ev other = s.ev other := by
  unfold keepMono
  split
  · exact State.setEvent_other s _ different
  · exact State.setEvent_other s _ different

theorem keepMono_frame (ins : ι) (ev : MmapEvent) :
    (keepMono cfg ins ev s).heap = s.heap ∧
    (keepMono cfg ins ev s).heapPoppedTime = s.heapPoppedTime ∧
    (keepMono cfg ins ev s).nrUnorderedEvents = s.nrUnorderedEvents ∧
    (keepMono cfg ins ev s).out = s.out := by
  unfold keepMono
  split <;> exact ⟨rfl, rfl, rfl, rfl⟩

end

omit [DecidableEq ι] in
theorem keepPopped_of_le (ins : ι) (hle : s.heapPoppedTime cfg.mainDev ≤ time) :
    (keepPopped cfg ins time s).heapPoppedTime cfg.mainDev = time ∧
      (keepPopped cfg ins time s).nrUnorderedEvents = s.nrUnorderedEvents := by
  unfold keepPopped
  dsimp only
  split
  · rw [if_neg (by omega)]
    simp [State.setPopped]
  · rename_i hother
    have hmain : (s.setPopped (cfg.dev ins) time).heapPoppedTime cfg.mainDev =
        s.heapPoppedTime cfg.mainDev := by
      simp [State.setPopped, Ne.symm hother]
    rw [if_neg (by omega)]
    simp [State.setPopped]

omit [DecidableEq ι] in
theorem keepPopped_frame (cfg : Config ι δ) (s : State ι δ) (ins : ι)
    (time : Nat) :
    (keepPopped cfg ins time s).ev = s.ev ∧
    (keepPopped cfg ins time s).heap = s.heap ∧
    (keepPopped cfg ins time s).out = s.out := by
  unfold keepPopped
  dsimp only
  split <;> split <;> exact ⟨rfl, rfl, rfl⟩

omit [DecidableEq δ] in
theorem Ordered.top_bounds (ordered : Ordered cfg s) (hphase : s.phase = .loop)
    (member : ins ∈ s.heap)
    (least : ∀ other ∈ s.heap, (s.ev ins).time ≤ (s.ev other).time) :
    s.heapPoppedTime cfg.mainDev ≤
      max (s.ev ins).time (s.ev ins).eventMonoTime ∧
    ∀ other ∈ s.heap, other ≠ ins →
      max (s.ev ins).time (s.ev ins).eventMonoTime ≤ (s.ev other).time := by
  have hmono := ordered.mono ins
  have hpending := ordered.pending
  rw [hphase] at hpending
  rcases hpending with hlater | ⟨last, hlast, hlater⟩
  · have htime := hlater ins member id
    refine ⟨by omega, ?_⟩
    intro other inside _
    have := least other inside
    omega
  · by_cases same : ins = last
    · subst same
      refine ⟨by omega, ?_⟩
      intro other inside different
      have := least other inside
      have := hlater other inside different
      omega
    · have htime := hlater ins member same
      refine ⟨by omega, ?_⟩
      intro other inside _
      have := least other inside
      omega

omit [DecidableEq ι] in
theorem sampleTime_popped (hpayload : record.payload = .sample ev.time) :
    Output.sampleTime (.record ins position
      (if ev.time < ev.eventMonoTime then record.withTime ev.eventMonoTime
        else record) writable) = some (max ev.time ev.eventMonoTime) := by
  split
  · rename_i behind
    simp [Output.sampleTime, withTime_payload _ hpayload, Nat.le_of_lt behind]
  · rename_i ahead
    simp [Output.sampleTime, hpayload]
    omega

theorem popEvent_frame (cfg : Config ι δ) (s : State ι δ) (ins : ι)
    (position : Nat) (record : Record) (ev : MmapEvent) :
    (popEvent cfg ins position record ev s).ev = (keepMono cfg ins ev s).ev ∧
      (popEvent cfg ins position record ev s).heap = s.heap ∧
      (popEvent cfg ins position record ev s).phase = .consume ins false := by
  refine ⟨?_, ?_, rfl⟩
  · exact (keepPopped_frame cfg _ ins _).1
  · exact (keepPopped_frame cfg _ ins _).2.1.trans (keepMono_frame cfg s ins ev).1

theorem popEvent_of_le (ins : ι) (position : Nat) (record : Record)
    (hle : s.heapPoppedTime cfg.mainDev ≤ max ev.time ev.eventMonoTime) :
    (popEvent cfg ins position record ev s).heapPoppedTime cfg.mainDev =
      max ev.time ev.eventMonoTime ∧
    (popEvent cfg ins position record ev s).nrUnorderedEvents =
      s.nrUnorderedEvents := by
  obtain ⟨_, hpopped, hcount, _⟩ := keepMono_frame cfg s ins ev
  have htime := (keepMono_time cfg s ins ev).1
  have hmax : (keepMono cfg ins ev s).heapPoppedTime cfg.mainDev ≤
      ((keepMono cfg ins ev s).ev ins).time := by
    rw [hpopped, htime]
    exact hle
  obtain ⟨hmain, hunordered⟩ := keepPopped_of_le ins hmax
  exact ⟨hmain.trans htime, hunordered.trans hcount⟩

theorem popEvent_sampleTimes (cfg : Config ι δ) (s : State ι δ) (ins : ι)
    (position : Nat) (hpayload : record.payload = .sample ev.time) :
    sampleTimes (popEvent cfg ins position record ev s).out =
      sampleTimes s.out ++ [max ev.time ev.eventMonoTime] := by
  have hout : (keepPopped cfg ins ((keepMono cfg ins ev s).ev ins).time
      (keepMono cfg ins ev s)).out = s.out :=
    (keepPopped_frame cfg _ ins _).2.2.trans
      (keepMono_frame cfg s ins ev).2.2.2
  simp only [popEvent, State.emit, State.goto]
  rw [sampleTimes_append, hout, sampleTime_popped hpayload]
  rfl

section

variable (ordered : Ordered cfg s)

include ordered

theorem Ordered.popEvent (hphase : s.phase = .loop) (member : ins ∈ s.heap)
    (least : ∀ other ∈ s.heap, (s.ev ins).time ≤ (s.ev other).time)
    (hevent : ev.event = some (position, record))
    (hpayload : record.payload = .sample ev.time)
    (htime : ev.time = (s.ev ins).time)
    (hmono : ev.eventMonoTime = (s.ev ins).eventMonoTime) :
    Ordered cfg (popEvent cfg ins position record ev s) := by
  obtain ⟨hle, hothers⟩ := ordered.top_bounds hphase member least
  rw [← htime, ← hmono] at hle hothers
  obtain ⟨hev, hheap, hnext⟩ := popEvent_frame cfg s ins position record ev
  obtain ⟨hpopped, hunordered⟩ := popEvent_of_le ins position record hle
  have hsamples := popEvent_sampleTimes cfg s ins position hpayload
  refine ⟨?_, ?_, ?_, ?_, ?_, ?_, ?_⟩
  · rw [hsamples, List.pairwise_append]
    refine ⟨ordered.sorted, List.pairwise_singleton _ _, ?_⟩
    intro earlier inside last hlast
    rw [List.mem_singleton.mp hlast]
    exact Nat.le_trans (ordered.delivered earlier inside) hle
  · intro time inside
    rw [hsamples, List.mem_append, List.mem_singleton] at inside
    rw [hpopped]
    rcases inside with inside | rfl
    · exact Nat.le_trans (ordered.delivered time inside) hle
    · exact Nat.le_refl _
  · rw [hunordered]
    exact ordered.unordered
  · intro other
    rw [hev, hpopped]
    by_cases same : other = ins
    · rw [same]
      exact Nat.le_of_eq (keepMono_time cfg s ins ev).2
    · rw [keepMono_other cfg s ev same]
      exact Nat.le_trans (ordered.mono other) hle
  · intro other inside
    rw [hev]
    rw [hheap] at inside
    by_cases same : other = ins
    · rw [same]
      exact keepMono_event cfg s ins hevent hpayload
    · rw [keepMono_other cfg s ev same]
      exact ordered.sampled other inside
  · rw [hheap, hnext]
    exact ordered.done_nodup rfl
  · rw [hnext]
    refine ⟨?_, ?_⟩
    · rw [hev, hpopped, (keepMono_time cfg s ins ev).2]
    · intro other inside different
      rw [hheap] at inside
      rw [hev, hpopped, keepMono_other cfg s ev different]
      exact hothers other inside different

theorem Ordered.processTop (hphase : s.phase = .loop) (member : ins ∈ s.heap)
    (least : ∀ other ∈ s.heap, (s.ev ins).time ≤ (s.ev other).time)
    (hstep : processTop cfg ins s = some next) : Ordered cfg next := by
  cases processTop_turned hstep with
  | late => exact ordered.stop .targetTime
  | kept => exact ordered.goto (ordered.done_nodup rfl) trivial
  | paused =>
    apply Ordered.stop
    exact ordered.setEvent_same rfl
  | popped hevent lostEnd pause =>
    obtain ⟨event, hsampled, hpayload⟩ := ordered.sampled ins member
    cases hevent.symm.trans hsampled
    exact ordered.popEvent hphase member least hevent hpayload rfl rfl

theorem Ordered.readStep (hphase : s.phase = .read ins needBreak) :
    Ordered cfg (readStep cfg ins needBreak s) := by
  have hpending := ordered.pending
  rw [hphase] at hpending
  have hnodup := ordered.done_nodup (show (Phase.consume ins needBreak).todo = [] from rfl)
  unfold Order.readStep
  rcases (s.ev ins).map.readEvent with ⟨map, _ | ⟨position, record, writable⟩⟩
  · obtain ⟨hpopped, hloop⟩ := (ordered.setMap ins map.readDone).pop hphase
    exact hpopped.resume hloop
  · dsimp only
    split
    · rename_i time hpayload
      have hread : Ordered cfg (s.setEvent ins
          ((s.ev ins).readAhead map position record time writable)) :=
        ordered.setEvent_read hphase rfl rfl hpayload
      have hflushed := hread.flushLost ins
      have hbehind := hflushed.pending
      rw [flushLost_phase, show (s.setEvent ins _).phase = s.phase from rfl, hphase] at hbehind
      exact hflushed.resume (.inr ⟨ins, hbehind⟩)
    · rename_i id count hpayload
      have hlost := (ordered.countLost (cfg.dev ins)).setMap ins map
      have hbehind : Pending cfg ((s.countLost (cfg.dev ins)).setMap ins map)
          (.consume ins needBreak) := (pending_setMap ins _ _).mpr hpending
      split
      · exact hlost.of_same_seen rfl hnodup hbehind
      · exact (hlost.emit_record (by simp [Record.isSample, hpayload])).goto hnodup hbehind
    · rename_i hpayload
      have hmap := ordered.setMap ins map
      exact (hmap.emit_record (by simp [Record.isSample, hpayload])).goto hnodup
        ((pending_setMap ins _ (.consume ins needBreak)).mpr hpending)

omit [DecidableEq δ] in
theorem Ordered.unwindStep (hphase : s.phase = .unwind) :
    Ordered cfg (unwindStep s) := by
  unfold Order.unwindStep
  split
  · exact ordered.goto_idle
  · rename_i ins rest hheap
    dsimp only
    generalize (Mmap.consume _) = map
    refine (ordered.setMap ins map).of_same_popped rfl rfl rfl (fun _ => rfl) ?_ ?_ ?_
    · intro other member
      exact (ordered.setMap ins map).sampled other
        (by rw [show (s.setMap ins map).heap = s.heap from rfl, hheap]
            exact List.mem_cons_of_mem ins member)
    · have hnodup := ordered.heap_nodup
      rw [hheap] at hnodup
      change (rest ++ s.phase.todo).Nodup
      simpa [hphase, Phase.todo] using (List.nodup_cons.mp hnodup).2
    · change Pending cfg _ s.phase
      rw [hphase]
      trivial

theorem step_ordered (hstep : step cfg action s = some next) :
    Ordered cfg next := by
  cases step_stepped hstep with
  | arrive appended => exact ordered.setMap _ _
  | scribble old => exact ordered.setMap _ _
  | call target targetTm => exact ordered.orderProcess target targetTm
  | target hphase => exact ordered.targetStep _ _
  | filled hphase =>
    have hpending := ordered.pending
    rw [hphase] at hpending
    exact ordered.goto (ordered.done_nodup rfl) (.inl hpending)
  | init hphase => exact ordered.mmapEventInit hphase
  | retry hphase => exact ordered.mmapEventRetry hphase
  | empty hphase => exact ordered.stop .empty
  | top hphase member least htop => exact ordered.processTop hphase member least htop
  | consume hphase => exact ordered.consumeStep hphase
  | read hphase => exact ordered.readStep hphase
  | unwind hphase => exact ordered.unwindStep hphase

end

end Steps

/-- Over every run the delivered sample times are nondecreasing, and the
out-of-order counter of every device stays zero. -/
theorem delivered_samples_sorted [DecidableEq ι] [DecidableEq δ]
    (cfg : Config ι δ) (map : ι → Mmap) (actions : List (Action ι))
    (last : State ι δ)
    (hrun : Data.run (step cfg) actions (State.init map) = some last) :
    (sampleTimes last.out).Pairwise (· ≤ ·) ∧
    ∀ dev, last.nrUnorderedEvents dev = 0 := by
  have ordered : Ordered cfg last :=
    Data.run_preserves (Ordered cfg) (fun _ _ _ ordered hstep => step_ordered ordered hstep)
      (State.init_ordered cfg map) hrun
  exact ⟨ordered.sorted, ordered.unordered⟩

def pairConfig : Config Bool Unit where
  dev := fun _ => ()
  mainDev := ()
  hasLost := fun _ => false
  wakeupWatermark := fun _ => 0
  heapEventList := [true, false]
  heapEventList_nodup := by decide

def pairActions : List (Action Bool) :=
  [.arrive true (.short 1 (.sample 10)), .arrive true (.short 1 (.sample 5)),
    .arrive false (.short 2 (.sample 7)),
    .call none 0] ++ List.replicate 8 (.advance false) ++
    List.replicate 8 (.advance true)

theorem delivered_samples_sorted_pair :
    ∃ last, Data.run (step pairConfig) pairActions
        (State.init fun _ => Mmap.mapped false 4095 0 0) = some last ∧
      sampleTimes last.out = [7, 10, 10] ∧
      (sampleTimes last.out).Pairwise (· ≤ ·) ∧
      ∀ dev, last.nrUnorderedEvents dev = 0 := by
  refine ⟨_, (Option.some_get ?_).symm, ?_,
    delivered_samples_sorted _ _ _ _ (Option.some_get _).symm⟩
  all_goals decide +kernel

end PerfProf.Order
