import PerfProf.Order.Delivery

namespace PerfProf.Order

namespace Mmap

variable (map : Mmap)

@[simp] theorem consume_log : map.consume.log = map.log := by
  unfold consume
  dsimp only
  split <;> rfl

@[simp] theorem readInit_log : map.readInit.1.log = map.log := by
  unfold readInit
  dsimp only
  split
  · rfl
  · split
    · rfl
    · split
      · exact consume_log _
      · rfl

@[simp] theorem read_log : map.read.1.log = map.log := by
  unfold read
  split
  · rfl
  · split
    · rfl
    · split <;> rfl

@[simp] theorem readEvent_log : map.readEvent.1.log = map.log := by
  have hread := read_log { map with endPos := map.readHead }
  unfold readEvent
  dsimp only
  split
  · rfl
  · split
    · rename_i next hnext
      rw [hnext] at hread
      exact hread
    · rename_i next record hnext
      rw [hnext] at hread
      exact hread

@[simp] theorem readDone_log : map.readDone.log = map.log := by
  unfold readDone
  split <;> rfl

@[simp] theorem unreadEvent_log (record : Record) :
    (map.unreadEvent record).log = map.log := by
  unfold unreadEvent
  dsimp only
  split <;> rfl

end Mmap

variable {ι δ : Type}

structure Grows (s next : State ι δ) : Prop where
  log : ∀ ins, (s.ev ins).map.log <+: (next.ev ins).map.log
  out : s.out <+: next.out

namespace Grows

variable {s middle next : State ι δ}

theorem refl (s : State ι δ) : Grows s s :=
  ⟨fun _ => List.prefix_rfl, List.prefix_rfl⟩

theorem trans (first : Grows s middle) (second : Grows middle next) :
    Grows s next :=
  ⟨fun ins => (first.log ins).trans (second.log ins), first.out.trans second.out⟩

theorem congr (grows : Grows s middle) (hev : next.ev = middle.ev)
    (hout : next.out = middle.out) : Grows s next :=
  ⟨fun ins => hev ▸ grows.log ins, hout ▸ grows.out⟩

theorem emit (grows : Grows s middle) (output : Output ι) :
    Grows s (middle.emit output) :=
  ⟨grows.log, grows.out.trans (List.prefix_append _ _)⟩

theorem reportLost (grows : Grows s middle) (ins : ι) (lost : LostRecord) :
    Grows s (reportLost middle ins lost) := by
  unfold Order.reportLost
  split
  · exact grows
  · exact grows.emit _

variable [DecidableEq ι]

theorem setEvent (grows : Grows s middle) (ins : ι)
    (hlog : (middle.ev ins).map.log <+: ev.map.log) :
    Grows s (middle.setEvent ins ev) := by
  refine ⟨?_, grows.out⟩
  intro other
  by_cases same : other = ins
  · rw [same, State.setEvent_self]
    exact (grows.log ins).trans hlog
  · rw [State.setEvent_other _ _ same]
    exact grows.log other

theorem setMap (grows : Grows s middle) (ins : ι)
    (hlog : (middle.ev ins).map.log <+: map.log) :
    Grows s (middle.setMap ins map) :=
  grows.setEvent ins hlog

end Grows

section Steps

variable [DecidableEq ι] [DecidableEq δ]

omit [DecidableEq δ] in
theorem orderProcess_grows (cfg : Config ι δ) (target : Option ι)
    (targetTm : Nat) (s : State ι δ) :
    Grows s (orderProcess cfg target targetTm s) := by
  cases target with
  | none => exact (Grows.refl s).congr rfl rfl
  | some ins =>
    have hmap : Grows s (s.setMap ins (s.ev ins).map.readInit.1) :=
      (Grows.refl s).setMap ins (by simp)
    simp only [orderProcess]
    split
    · exact hmap.congr rfl rfl
    · exact hmap

omit [DecidableEq δ] in
theorem mmapEventInit_grows (ins : ι) (todo : List ι) (s : State ι δ) :
    Grows s (mmapEventInit ins todo s) := by
  have hmap : Grows s (s.setMap ins (s.ev ins).map.readInit.1) :=
    (Grows.refl s).setMap ins (by simp)
  simp only [mmapEventInit]
  split
  · exact (Grows.refl s).congr rfl rfl
  · split
    · exact hmap.congr rfl rfl
    · exact hmap.congr rfl rfl

theorem mmapEventRetry_grows (cfg : Config ι δ) (ins : ι) (lost : LostRecord)
    (todo : List ι) (s : State ι δ) :
    Grows s (mmapEventRetry cfg ins lost todo s) := by
  have hlog := (s.ev ins).map.readEvent_log
  unfold mmapEventRetry
  generalize (s.ev ins).map.readEvent = result at hlog ⊢
  rcases result with ⟨map, _ | ⟨position, record, writable⟩⟩
  · dsimp only at hlog
    exact ((Grows.refl s).setMap ins (by simp [hlog])).congr rfl rfl
  · dsimp only at hlog ⊢
    have hmap : Grows s (s.setMap ins map.consume) :=
      (Grows.refl s).setMap ins (by simp [hlog])
    split
    · rename_i time _
      have hfixed : Grows s (fixAtInit cfg ins
          ((s.ev ins).readAhead map position record time writable) s) := by
        unfold fixAtInit
        dsimp only
        split
        · refine ((Grows.refl s).setEvent ins ?_).congr rfl rfl
          simp [fixOutOfOrder, MmapEvent.readAhead, hlog]
        · refine (Grows.refl s).setEvent ins ?_
          simp [MmapEvent.readAhead, hlog]
      exact (hfixed.reportLost ins lost).congr rfl rfl
    · split
      · exact hmap.congr rfl rfl
      · exact (hmap.emit _).congr rfl rfl
    · exact (hmap.emit _).congr rfl rfl

theorem popEvent_grows (cfg : Config ι δ) (ins : ι) (position : Nat)
    (record : Record) (hmap : ev.map = (s.ev ins).map) :
    Grows s (popEvent cfg ins position record ev s) := by
  obtain ⟨hev, _, _⟩ := popEvent_frame cfg s ins position record ev
  obtain ⟨_, _, _, hout⟩ := popEvent_out cfg s ins position record ev
  refine ⟨?_, ?_⟩
  · intro other
    rw [hev]
    by_cases same : other = ins
    · rw [same, keepMono_map]
      exact hmap ▸ List.prefix_rfl
    · have hother := keepMono_other cfg s ev same
      exact hother ▸ List.prefix_rfl
  · rw [hout]
    exact List.prefix_append _ _

variable {cfg : Config ι δ}

theorem processTop_grows (hstep : processTop cfg ins s = some next) :
    Grows s next := by
  cases processTop_turned hstep with
  | late | kept => exact (Grows.refl s).congr rfl rfl
  | paused =>
    have hev : Grows s (s.setEvent ins { s.ev ins with lostPause := true }) :=
      (Grows.refl s).setEvent ins List.prefix_rfl
    exact hev.congr rfl rfl
  | popped hevent lostEnd pause => exact popEvent_grows cfg ins _ _ rfl

omit [DecidableEq δ] in
theorem consumeStep_grows (cfg : Config ι δ) (ins : ι) (needBreak : Bool)
    (s : State ι δ) : Grows s (consumeStep cfg ins needBreak s) := by
  have hmap : Grows s (s.setMap ins (consumeMap cfg ins (s.ev ins))) := by
    apply (Grows.refl s).setMap ins
    unfold consumeMap
    split <;> simp
  unfold consumeStep
  dsimp only
  split
  · exact hmap.congr rfl rfl
  · exact hmap.congr rfl rfl

theorem readStep_grows (cfg : Config ι δ) (ins : ι) (needBreak : Bool)
    (s : State ι δ) : Grows s (readStep cfg ins needBreak s) := by
  have hlog := (s.ev ins).map.readEvent_log
  unfold readStep
  generalize (s.ev ins).map.readEvent = result at hlog ⊢
  rcases result with ⟨map, _ | ⟨position, record, writable⟩⟩
  · dsimp only at hlog
    exact ((Grows.refl s).setMap ins (by simp [hlog])).congr rfl rfl
  · dsimp only at hlog ⊢
    have hmap : Grows s (s.setMap ins map) :=
      (Grows.refl s).setMap ins (by simp [hlog])
    split
    · rename_i time _
      have hread : Grows s (s.setEvent ins ((s.ev ins).readAhead map position record time
          writable)) := (Grows.refl s).setEvent ins (by simp [MmapEvent.readAhead, hlog])
      have hflushed : Grows s (flushLost ins (s.setEvent ins
          ((s.ev ins).readAhead map position record time writable))) := by
        unfold flushLost
        split
        · exact hread
        · exact (hread.reportLost ins _).congr rfl rfl
      exact hflushed.congr rfl rfl
    · split
      · exact hmap.congr rfl rfl
      · exact (hmap.emit _).congr rfl rfl
    · exact (hmap.emit _).congr rfl rfl

omit [DecidableEq δ] in
theorem unwindStep_grows (s : State ι δ) : Grows s (unwindStep s) := by
  unfold unwindStep
  split
  · exact (Grows.refl s).congr rfl rfl
  · rename_i ins rest hheap
    refine ((Grows.refl s).setMap ins ?_).congr rfl rfl
    split <;> simp

theorem step_grows (inv : Delivered cfg s)
    (hstep : step cfg action s = some next) : Grows s next := by
  cases step_stepped hstep with
  | arrive appended =>
    apply (Grows.refl s).setMap
    unfold Mmap.append at appended
    split at appended
    · cases appended
      exact List.prefix_append _ _
    · cases appended
  | scribble old => cases (inv.plain _).symm.trans old
  | call target targetTm hphase => exact orderProcess_grows cfg target targetTm s
  | target hphase =>
    unfold targetStep
    split
    · exact (Grows.refl s).congr rfl rfl
    · exact (Grows.refl s).congr rfl rfl
  | filled hphase => exact (Grows.refl s).congr rfl rfl
  | init hphase => exact mmapEventInit_grows _ _ s
  | retry hphase => exact mmapEventRetry_grows cfg _ _ _ s
  | empty hphase => exact (Grows.refl s).congr rfl rfl
  | top hphase member least htop => exact processTop_grows htop
  | consume hphase => exact consumeStep_grows cfg _ _ s
  | read hphase => exact readStep_grows cfg _ _ s
  | unwind hphase => exact unwindStep_grows s

theorem run_delivered (inv : Delivered cfg s)
    (hrun : Data.run (step cfg) actions s = some last) :
    Delivered cfg last ∧ Grows s last := by
  have preserved : ∀ action state next, Delivered cfg state ∧ Grows s state →
        step cfg action state = some next →
        Delivered cfg next ∧ Grows s next := by
    rintro action state next ⟨hstate, hgrows⟩ hstep
    exact ⟨step_delivered hstate hstep, hgrows.trans (step_grows hstate hstep)⟩
  exact Data.run_preserves (fun state => Delivered cfg state ∧ Grows s state)
    preserved ⟨inv, Grows.refl s⟩ hrun

end Steps

def samplesFrom : Nat → List Record → List (Nat × Record)
  | _, [] => []
  | position, record :: rest =>
    (if record.isSample then [(position, record.untimed)] else []) ++
      samplesFrom (position + record.size) rest

@[simp] theorem Record.isSample_untimed (record : Record) :
    record.untimed.isSample = record.isSample := by
  cases hpayload : record.payload with
  | sample old => simp [untimed, withTime, isSample, hpayload]
  | lost id count => simp [untimed, withTime, isSample, hpayload]
  | other => simp [untimed, withTime, isSample, hpayload]

theorem filter_deliverable (cfg : Config ι δ) (ins : ι) (position : Nat)
    (records : List Record) :
    (deliverable cfg ins position records).filter (·.2.isSample) =
      samplesFrom position records :=
    by
  induction records generalizing position with
  | nil => rfl
  | cons head tail ih =>
    rw [deliverable, samplesFrom, List.filter_append, ih]
    congr 1
    cases hpayload : head.payload with
    | sample time =>
      have hkind : head.isSample = true := by simp [Record.isSample, hpayload]
      simp [takesLost, hpayload, hkind]
    | lost id count =>
      have hkind : head.isSample = false := by simp [Record.isSample, hpayload]
      simp only [takesLost, hpayload]
      split <;> simp [hkind]
    | other =>
      have hkind : head.isSample = false := by simp [Record.isSample, hpayload]
      simp [takesLost, hpayload, hkind]

variable {cfg : Config ι δ} {ins : ι} {record : Record} {position : Nat}

theorem deliverable_mem
    (found : recordAt (before ++ after) position = some record)
    (bounded : position < bytes before)
    (handed : takesLost cfg ins record = false) :
    (position, record.untimed) ∈ deliverable cfg ins 0 before := by
  obtain ⟨first, last, hsplit, hbytes⟩ := recordAt_split found
  rcases List.append_eq_append_iff.mp hsplit with ⟨extra, rfl, _⟩ | ⟨extra, rfl, hrest⟩
  · rw [bytes_append] at hbytes
    omega
  · cases extra with
    | nil =>
      simp at bounded
      omega
    | cons head tail =>
      cases hrest
      rw [deliverable_append, deliverable, handed]
      simp [hbytes]

variable [DecidableEq ι]

def deliveredSamples (ins : ι) (out : List (Output ι)) : List (Nat × Record) :=
  (deliveries ins out).filter (·.2.isSample)

theorem Tracked.cursor (tracked : Tracked cfg s ins) :
    ∃ before after, (s.ev ins).map.log = before ++ after ∧
      (s.ev ins).map.tail ≤ bytes before ∧
      deliveries ins s.out = deliverable cfg ins 0 before := by
  by_cases held : Held s ins
  · obtain ⟨before, record, after, _, reader, htail, _, _, _, hdelivered⟩ := tracked.ahead held
    refine ⟨before, record :: after, ?_, htail, hdelivered⟩
    simpa using reader.log
  · obtain ⟨before, after, reader, hdelivered⟩ := tracked.free held
    exact ⟨before, after, reader.log, reader.tail, hdelivered⟩

theorem Tracked.samples_prefix (tracked : Tracked cfg s ins) :
    deliveredSamples ins s.out <+: samplesFrom 0 (s.ev ins).map.log := by
  obtain ⟨before, after, hlog, _, hdelivered⟩ := tracked.cursor
  rw [deliveredSamples, hdelivered, hlog, ← filter_deliverable cfg ins, deliverable_append]
  exact (List.prefix_append _ _).filter _

theorem Tracked.samples_increasing (tracked : Tracked cfg s ins) :
    (deliveredSamples ins s.out).Pairwise (·.1 < ·.1) := by
  obtain ⟨before, after, _, _, hdelivered⟩ := tracked.cursor
  rw [deliveredSamples, hdelivered]
  exact (deliverable_increasing cfg ins 0 before).filter _

theorem Tracked.tail_delivered (tracked : Tracked cfg s ins)
    (found : recordAt (s.ev ins).map.log position = some record)
    (consumed : position < (s.ev ins).map.tail)
    (handed : takesLost cfg ins record = false) :
    (position, record.untimed) ∈ deliveries ins s.out := by
  obtain ⟨before, after, hlog, htail, hdelivered⟩ := tracked.cursor
  rw [hdelivered]
  rw [hlog] at found
  exact deliverable_mem found (by omega) handed

theorem Ahead.next_delivered (ahead : Ahead cfg s ins)
    (hevent : (s.ev ins).event = some (position, record)) (grows : Grows s last)
    (tracked : Tracked cfg last ins) :
    ∃ rest, deliveredSamples ins last.out = deliveredSamples ins s.out ++ rest ∧
      (rest = [] ∨ ∃ more, rest = (position, record.untimed) :: more) := by
  obtain ⟨before, sample, after, event, reader, _, hahead, hsame, hsample, hdelivered⟩ := ahead
  rw [hevent] at hahead
  cases hahead
  obtain ⟨passed, later, hlog, _, hlast⟩ := tracked.cursor
  have hgrown : before ++ [sample] <+: passed ++ later := by
    rw [← hlog]
    refine List.IsPrefix.trans ?_ (grows.log ins)
    rw [reader.log]
    exact List.prefix_append _ _
  by_cases hpassed : before ++ [sample] <+: passed
  · obtain ⟨extra, rfl⟩ := hpassed
    refine ⟨_, ?_, .inr ⟨(deliverable cfg ins (0 + bytes (before ++ [sample]))
      extra).filter (·.2.isSample), rfl⟩⟩
    have htaken := takesLost_of_isSample cfg ins hsample
    rw [deliveredSamples, deliveredSamples, hlast, hdelivered, deliverable_append, deliverable_snoc
      htaken, List.filter_append, List.filter_append, List.append_assoc]
    simp [hsample, hsame]
  · have hback : passed <+: before := by
      have hshared : passed <+: passed ++ later := List.prefix_append _ _
      rcases List.prefix_or_prefix_of_prefix hgrown hshared with inside | inside
      · exact absurd inside hpassed
      · rcases List.prefix_concat_iff.mp inside with rfl | inside
        · exact absurd List.prefix_rfl hpassed
        · exact inside
    have hfewer : deliveries ins last.out <+: deliveries ins s.out := by
      obtain ⟨extra, rfl⟩ := hback
      rw [hlast, hdelivered, deliverable_append]
      exact List.prefix_append _ _
    have hmore : deliveries ins s.out <+: deliveries ins last.out := grows.out.filterMap _
    refine ⟨[], ?_, .inl rfl⟩
    rw [deliveredSamples, hfewer.eq_of_length_le hmore.length_le, List.append_nil]
    rfl

theorem Ahead.not_delivered (ahead : Ahead cfg s ins)
    (hevent : (s.ev ins).event = some (position, record)) :
    (position, record.untimed) ∉ deliveredSamples ins s.out := by
  obtain ⟨before, sample, after, event, _, _, hahead, _, _, hdelivered⟩ := ahead
  rw [hevent] at hahead
  cases hahead
  intro member
  rw [deliveredSamples, hdelivered] at member
  have hbounds := deliverable_bounds (List.mem_of_mem_filter member)
  dsimp only at hbounds
  omega

/-- Over every run on non-overwrite buffers: the samples delivered from a buffer
are its first samples, in order and each once; every record in front of the tail
has been delivered, or was a lost record for the device itself; and a sample
still held when a call stops has not been delivered and is the next one of its
buffer to be delivered. -/
theorem samples_delivered_once [DecidableEq δ] (cfg : Config ι δ)
    (mask flush shared : ι → Nat) (actions : List (Action ι)) (last : State ι δ)
    (hrun : Data.run (step cfg) actions (State.init fun ins =>
      Mmap.mapped false (mask ins) (flush ins) (shared ins)) = some last)
    (ins : ι) :
    (deliveredSamples ins last.out).Pairwise (·.1 < ·.1) ∧
    deliveredSamples ins last.out <+: samplesFrom 0 (last.ev ins).map.log ∧
    (∀ position record, recordAt (last.ev ins).map.log position = some record →
      position < (last.ev ins).map.tail →
      takesLost cfg ins record = false →
      (position, record.untimed) ∈ deliveries ins last.out) ∧
    (∀ position record, last.phase = .unwind →
      ins ∈ last.heap →
      (last.ev ins).event = some (position, record) →
      (position, record.untimed) ∉ deliveredSamples ins last.out ∧
        ∀ later final, Data.run (step cfg) later last = some final →
          ∃ rest,
            deliveredSamples ins final.out =
              deliveredSamples ins last.out ++ rest ∧
            (rest = [] ∨
              ∃ more, rest = (position, record.untimed) :: more)) := by
  have inv := (run_delivered (State.init_delivered cfg mask flush shared) hrun).1
  have tracked := inv.tracked ins
  refine ⟨tracked.samples_increasing, tracked.samples_prefix, ?_, ?_⟩
  · intro position record found consumed handed
    exact tracked.tail_delivered found consumed handed
  · intro position record hphase member hevent
    have held : Held last ins := ⟨member, by simp [hphase, Phase.busy]⟩
    refine ⟨(tracked.ahead held).not_delivered hevent, ?_⟩
    intro later final hlater
    obtain ⟨hfinal, hgrows⟩ := run_delivered inv hlater
    exact (tracked.ahead held).next_delivered hevent hgrows (hfinal.tracked ins)

/-- A call with target time 15 on one buffer holding 10 and 20: it stops with
the second sample read ahead. -/
def targetActions : List (Action Bool) :=
  [.arrive true (.short 1 (.sample 10)), .arrive true (.short 2 (.sample 20)),
    .call none 15] ++ List.replicate 8 (.advance true)

theorem samples_delivered_once_target :
    ∃ last : State Bool Unit,
      Data.run (step pairConfig) targetActions (State.init fun _ =>
        Mmap.mapped false 4095 0 0) = some last ∧
      last.phase = .unwind ∧
      deliveredSamples true last.out =
        [(0, ⟨16, .sample 0, by decide, by decide⟩)] ∧
      (deliveredSamples true last.out).Pairwise (·.1 < ·.1) ∧
      deliveredSamples true last.out <+:
        samplesFrom 0 (last.ev true).map.log := by
  refine ⟨_, (Option.some_get ?_).symm, ?_, ?_, And.imp_right And.left (samples_delivered_once
    pairConfig (fun _ => 4095) (fun _ => 0) (fun _ => 0) targetActions _ (Option.some_get _).symm
    true)⟩
  all_goals decide +kernel

/-- The record read ahead is still in the buffer, in front of what is read next.
-/
def State.InPlace (s : State ι δ) (ins : ι) : Prop :=
  ∃ position event record, (s.ev ins).event = some (position, event) ∧
    recordAt (s.ev ins).map.log position = some record ∧ event.untimed = record.untimed ∧
    (s.ev ins).map.tail ≤ position ∧ position + record.size = (s.ev ins).map.start

/-- Over every run on non-overwrite buffers, while records keep arriving: what
lies between tail and head fits into the buffer, and the record that a source of
the heap points to is not overwritten. -/
theorem held_record_in_place [DecidableEq δ] (cfg : Config ι δ)
    (mask flush shared : ι → Nat) (actions : List (Action ι)) (last : State ι δ)
    (hrun : Data.run (step cfg) actions (State.init fun ins =>
      Mmap.mapped false (mask ins) (flush ins) (shared ins)) = some last)
    (ins : ι) :
    (last.ev ins).map.tail ≤ (last.ev ins).map.start ∧
    (last.ev ins).map.start ≤ bytes (last.ev ins).map.log ∧
    bytes (last.ev ins).map.log ≤
      (last.ev ins).map.tail + (last.ev ins).map.mask + 1 ∧
    (Held last ins → last.InPlace ins) := by
  have tracked := (run_delivered (State.init_delivered cfg mask flush shared) hrun).1.tracked ins
  obtain ⟨before, after, reader⟩ := tracked.reader
  have hlog := congrArg bytes reader.log
  have hstart := reader.start
  have htail := reader.tail
  rw [bytes_append] at hlog
  refine ⟨by omega, by omega, reader.room, fun held => ?_⟩
  obtain ⟨before, record, after, event, reader, htail, hevent, hsame, _⟩ := tracked.ahead held
  refine ⟨bytes before, event, record, hevent, ?_, hsame, htail, by simp [reader.start]⟩
  rw [reader.log, List.append_assoc]
  exact recordAt_prefix before after record

theorem held_record_in_place_target :
    ∃ last : State Bool Unit, Data.run (step pairConfig) targetActions
        (State.init fun _ => Mmap.mapped false 4095 0 0) = some last ∧
      Held last true ∧
      last.InPlace true := by
  refine ⟨_, (Option.some_get ?_).symm, ⟨?_, ?_⟩, (held_record_in_place pairConfig (fun _ => 4095)
    (fun _ => 0) (fun _ => 0) targetActions _ (Option.some_get _).symm true).2.2.2 ⟨?_, ?_⟩⟩
  all_goals decide +kernel

end PerfProf.Order
