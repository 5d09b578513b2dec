import PerfProf.Data.Slot
import PerfProf.Order.Runs

namespace PerfProf.Order

def Record.lostRecord? (record : Record) : Option LostRecord :=
  match record.payload with
  | .lost id lost => if lost = 0 then none else some ⟨id, lost⟩
  | _ => none

def Record.isLost (record : Record) : Bool :=
  match record.payload with
  | .lost _ _ => true
  | _ => false

def lostRecords (records : List Record) : List LostRecord :=
  records.filterMap Record.lostRecord?

@[simp] theorem lostRecords_append (left right : List Record) :
    lostRecords (left ++ right) = lostRecords left ++ lostRecords right := by
  simp [lostRecords]

def Record.leavesOpen (before : Nat) (record : Record) : Nat :=
  match record.payload with
  | .sample _ => 0
  | .lost _ lost => lost
  | .other => before

def openLoss (records : List Record) : Nat :=
  records.foldl Record.leavesOpen 0

@[simp] theorem openLoss_snoc (records : List Record) (record : Record) :
    openLoss (records ++ [record]) = record.leavesOpen (openLoss records) := by
  simp [openLoss]

def passed : List Record → Nat → List Record
  | [], _ => []
  | record :: rest, position =>
    if record.size ≤ position then
      record :: passed rest (position - record.size)
    else []

theorem passed_bytes (before after : List Record) :
    passed (before ++ after) (bytes before) = before := by
  induction before with
  | nil =>
    cases after with
    | nil => rfl
    | cons head tail =>
      have hpos := head.size_pos
      simp only [List.nil_append, passed, bytes_nil]
      rw [if_neg (by omega)]
  | cons head tail ih =>
    simp only [List.cons_append, passed, bytes_cons]
    rw [if_pos (by omega), Nat.add_sub_cancel_left, ih]

def Mmap.passed (map : Mmap) : List Record := Order.passed map.log map.start

def Mmap.upcoming? (map : Mmap) : Option Record := recordAt map.log map.start

theorem Reader.passed (reader : Reader map before after) :
    map.passed = before := by
  rw [Mmap.passed, reader.log, reader.start, passed_bytes]

theorem Reader.upcoming? (reader : Reader map before after) :
    map.upcoming? = after.head? := by
  rw [Mmap.upcoming?, reader.log, reader.start]
  cases after with
  | nil =>
    rw [List.append_nil]
    exact recordAt_end before
  | cons record rest => exact recordAt_prefix before rest record

variable {ι δ : Type}

def Phase.reading : Phase ι → Option ι
  | .retry ins _ _ | .consume ins _ | .read ins _ => some ins
  | _ => none

def Phase.reads : Phase ι → Option ι
  | .retry ins _ _ | .read ins _ => some ins
  | _ => none

/-- The local `lost` of the function that is running. -/
def State.waiting (s : State ι δ) : LostRecord :=
  match s.phase with
  | .retry _ lost _ => lost
  | _ => s.lost

def LostRecord.toList (lost : LostRecord) : List LostRecord :=
  if lost.lost = 0 then [] else [lost]

def readBy (action : Action ι) (s : State ι δ) : Option ι :=
  match action with
  | .advance _ => s.phase.reads
  | _ => none

/-- A step that reads on behind a lost record without a sample finds a record
there, and not another lost record. -/
def Answered (cfg : Config ι δ) (action : Action ι) (s : State ι δ) : Prop :=
  ∀ ins, readBy action s = some ins → cfg.hasLost (cfg.dev ins) = true →
    openLoss (s.ev ins).map.passed ≠ 0 →
    ∃ record, (s.ev ins).map.upcoming? = some record ∧ record.isLost = false

/-- The calls of `prof->lost` for one instance. -/
def lostReports [DecidableEq ι] (ins : ι) (out : List (Output ι)) :
    List LostRecord :=
  out.filterMap fun
    | .lost source lost _ _ => if source = ins then some lost else none
    | .record _ _ _ _ => none

section Effects

variable [DecidableEq ι]

@[simp] theorem lostReports_record (ins : ι) (out : List (Output ι))
    (source : ι) (position : Nat) (record : Record) (writable : Bool) :
    lostReports ins (out ++ [.record source position record writable]) =
      lostReports ins out := by
  simp [lostReports]

theorem lostReports_reportLost (ins source : ι) (s : State ι δ)
    (lost : LostRecord) :
    lostReports ins (reportLost s source lost).out =
      lostReports ins s.out ++ if source = ins then lost.toList else [] := by
  unfold reportLost LostRecord.toList
  by_cases hzero : lost.lost = 0
  · simp [hzero]
  · by_cases same : source = ins
    · simp [hzero, same, lostReports, State.emit]
    · simp [hzero, same, lostReports, State.emit]

theorem lostReports_flushLost (ins source : ι) (s : State ι δ) :
    lostReports ins (flushLost source s).out =
      lostReports ins s.out ++ if source = ins then s.lost.toList else [] := by
  unfold flushLost
  split
  · rename_i hzero
    simp [LostRecord.toList, hzero]
  · exact lostReports_reportLost ins source s s.lost

omit [DecidableEq ι] in
theorem flushLost_lost (source : ι) (s : State ι δ) :
    (flushLost source s).lost.toList = [] := by
  unfold flushLost
  split_ifs with hzero
  · simp [LostRecord.toList, hzero]
  · rfl

def Still (s next : State ι δ) (ins : ι) : Prop :=
  ∀ before after, Reader (s.ev ins).map before after →
    ∃ more, Reader (next.ev ins).map before (after ++ more)

omit [DecidableEq ι] in
theorem Still.of_map (same : (next.ev ins).map = (s.ev ins).map) :
    Still s next ins := by
  intro before after reader
  refine ⟨[], ?_⟩
  rw [List.append_nil, same]
  exact reader

variable {before after : List Record} {record : Record}

theorem Still.setMap {s next : State ι δ} {ins : ι}
    (hev : next.ev = (s.setMap ins map).ev)
    (kept : ∀ before after, Reader (s.ev ins).map before after →
      ∃ more, Reader map before (after ++ more))
    (other : ι) : Still s next other := by
  by_cases same : other = ins
  · intro before after reader
    rw [same] at reader ⊢
    rw [hev, State.setMap_map_self]
    exact kept before after reader
  · apply Still.of_map
    rw [hev, s.setMap_map_other map same]

structure Calm (s next : State ι δ) : Prop where
  still : ∀ ins, Still s next ins
  reports : ∀ ins, lostReports ins next.out = lostReports ins s.out

structure Passes (ins : ι) (record : Record) (s next : State ι δ) : Prop where
  reader : ∃ before after, Reader (s.ev ins).map before (record :: after) ∧
    Reader (next.ev ins).map (before ++ [record]) after
  others : ∀ other, other ≠ ins → Still s next other

def Phase.draining : Phase ι → Bool
  | .loop | .consume _ _ | .read _ _ | .unwind => true
  | _ => false

inductive Effect (cfg : Config ι δ) :
    Option ι → State ι δ → State ι δ → Prop
  | quiet {s next : State ι δ} (calm : Calm s next)
      (reading : next.phase.reading = s.phase.reading)
      (waiting : next.waiting.toList = s.waiting.toList) :
      Effect cfg none s next
  | clear {s next : State ι δ} (calm : Calm s next)
      (closed : s.phase.reading = none) (after : next.phase.reading = none)
      (empty : next.waiting.toList = []) : Effect cfg none s next
  | enter {s next : State ι δ} (ins : ι) (calm : Calm s next)
      (closed : s.phase.reading = none)
      (opened : next.phase.reading = some ins)
      (waiting : next.waiting.toList = s.waiting.toList) :
      Effect cfg none s next
  | giveBack {s next : State ι δ} (ins : ι) (record : Record)
      (sample : record.isSample = true) (passes : Passes ins record next s)
      (others : ∀ other, other ≠ ins → Still s next other)
      (reports : ∀ other, lostReports other next.out = lostReports other s.out)
      (closed : s.phase.reading = none) (after : next.phase.reading = none)
      (waiting : next.waiting.toList = s.waiting.toList) :
      Effect cfg none s next
  | pass {s next : State ι δ} (ins : ι) (record : Record)
      (plain : record.isSample = false)
      (handed : takesLost cfg ins record = false)
      (passes : Passes ins record s next)
      (reports : ∀ other, lostReports other next.out = lostReports other s.out)
      (reading : s.phase.reading = some ins)
      (after : next.phase.reading = some ins)
      (waiting : next.waiting.toList = s.waiting.toList) :
      Effect cfg (some ins) s next
  | take {s next : State ι δ} (ins : ι) (record : Record) (id lost : Nat)
      (payload : record.payload = .lost id lost)
      (handler : cfg.hasLost (cfg.dev ins) = true)
      (passes : Passes ins record s next)
      (reports : ∀ other, lostReports other next.out = lostReports other s.out)
      (reading : s.phase.reading = some ins)
      (after : next.phase.reading = some ins)
      (waiting : next.waiting = ⟨id, lost⟩) : Effect cfg (some ins) s next
  | report {s next : State ι δ} (ins : ι) (record : Record)
      (sample : record.isSample = true) (passes : Passes ins record s next)
      (reports : ∀ other, lostReports other next.out =
        lostReports other s.out ++ if ins = other then s.waiting.toList else [])
      (reading : s.phase.reading = some ins)
      (after : next.phase.reading = none)
      (empty : next.waiting.toList = []) : Effect cfg (some ins) s next
  | leave {s next : State ι δ} (ins : ι) (calm : Calm s next)
      (exhausted : (s.ev ins).map.upcoming? = none)
      (reading : s.phase.reading = some ins)
      (after : next.phase.reading = none)
      (waiting : next.waiting.toList = s.waiting.toList)
      (gone : ins ∉ next.heap) (draining : next.phase.draining = true) :
      Effect cfg (some ins) s next
  | discard {s next : State ι δ} (ins : ι) (calm : Calm s next)
      (exhausted : (s.ev ins).map.upcoming? = none)
      (reading : s.phase.reading = some ins)
      (after : next.phase.reading = none)
      (empty : next.waiting.toList = []) : Effect cfg (some ins) s next

variable {cfg : Config ι δ} {s next : State ι δ} {ins : ι}

omit [DecidableEq ι] in
theorem waiting_of_not_retry (s : State ι δ)
    (other : ∀ ins lost todo, s.phase ≠ .retry ins lost todo) :
    s.waiting = s.lost := by
  unfold State.waiting
  split
  · rename_i hphase
    exact absurd hphase (other _ _ _)
  · rfl

theorem Calm.setMap (hev : next.ev = (s.setMap ins map).ev)
    (hout : next.out = s.out)
    (kept : ∀ before after, Reader (s.ev ins).map before after →
      ∃ more, Reader map before (after ++ more)) :
    Calm s next where
  still := Still.setMap hev kept
  reports := fun other => by rw [hout]

theorem Calm.of_maps (hmap : ∀ ins, (next.ev ins).map = (s.ev ins).map)
    (hreports : ∀ ins, lostReports ins next.out = lostReports ins s.out) :
    Calm s next where
  still := fun ins => .of_map (hmap ins)
  reports := hreports

theorem Calm.of_same (hev : next.ev = s.ev) (hout : next.out = s.out) :
    Calm s next :=
  .of_maps (fun ins => by rw [hev]) (fun ins => by rw [hout])

theorem kept_readInit (map : Mmap) (before after : List Record)
    (reader : Reader map before after) :
    ∃ more, Reader map.readInit.1 before (after ++ more) :=
  ⟨[], by rw [List.append_nil]; exact reader.readInit⟩

theorem orderProcess_effect (hphase : s.phase = .idle) (target : Option ι)
    (targetTm : Nat) :
    Effect cfg none s (orderProcess cfg target targetTm s) := by
  have hwaiting : s.waiting = s.lost := waiting_of_not_retry s (by simp [hphase])
  cases target with
  | none => exact .clear (.of_same rfl rfl) (by rw [hphase]; rfl) rfl rfl
  | some ins =>
    simp only [orderProcess]
    split
    · refine .quiet (.setMap rfl rfl (kept_readInit _)) ?_ ?_
      · rw [hphase]
        rfl
      · rw [hwaiting]
        rfl
    · refine .quiet (.setMap rfl rfl (kept_readInit _)) rfl ?_
      rw [hwaiting, waiting_of_not_retry _ (by simp [State.setMap, State.setEvent, hphase])]
      rfl

theorem targetStep_effect (hphase : s.phase = .target ins targetTm) :
    Effect cfg none s (targetStep cfg ins targetTm s) := by
  have hwaiting : s.waiting = s.lost := waiting_of_not_retry s (by simp [hphase])
  unfold targetStep
  split
  · refine .quiet (.of_same rfl rfl) ?_ ?_
    · rw [hphase]
      rfl
    · rw [hwaiting]
      rfl
  · exact .clear (.of_same rfl rfl) (by rw [hphase]; rfl) rfl rfl

theorem mmapEventInit_effect (hphase : s.phase = .heapInit (ins :: todo))
    (hlost : s.lost = .none) :
    Effect cfg none s (mmapEventInit ins todo s) := by
  have hwaiting : s.waiting = s.lost := waiting_of_not_retry s (by simp [hphase])
  have hclosed : s.phase.reading = none := by rw [hphase]; rfl
  unfold mmapEventInit
  split
  · refine .quiet (.of_same rfl rfl) hclosed.symm ?_
    rw [hwaiting]
    rfl
  · dsimp only
    split
    · refine .enter ins (.setMap rfl rfl (kept_readInit _)) hclosed rfl ?_
      rw [hwaiting, hlost]
      rfl
    · refine .quiet (.setMap rfl rfl (kept_readInit _)) hclosed.symm ?_
      rw [hwaiting]
      rfl

omit [DecidableEq ι] in
theorem Passes.intro (reader : Reader (s.ev ins).map before (record :: after))
    (hmap : (next.ev ins).map = map)
    (hnext : Reader map (before ++ [record]) after)
    (hev : ∀ other, other ≠ ins → next.ev other = s.ev other) :
    Passes ins record s next where
  reader := ⟨before, after, reader, hmap.symm ▸ hnext⟩
  others := fun other different => .of_map (by rw [hev other different])

theorem Passes.setMap (reader : Reader (s.ev ins).map before (record :: after))
    (hev : next.ev = (s.setMap ins map).ev)
    (hnext : Reader map (before ++ [record]) after) :
    Passes ins record s next := by
  refine .intro reader ?_ hnext ?_
  · rw [hev, State.setMap_map_self]
  · intro other different
    rw [hev, s.setMap_map_other map different]

theorem kept_of_reader {map next : Mmap} (reader : Reader map before after)
    (hnext : Reader next before after) (front back : List Record)
    (other : Reader map front back) :
    ∃ more, Reader next front (back ++ more) := by
  have hfront : front = before := by rw [← other.passed, reader.passed]
  have hback : back = after := by
    have hlog := other.log.symm.trans reader.log
    rw [hfront] at hlog
    exact List.append_cancel_left hlog
  refine ⟨[], ?_⟩
  rw [hfront, hback, List.append_nil]
  exact hnext

variable [DecidableEq δ]

theorem fixAtInit_lost (cfg : Config ι δ) (s : State ι δ) (ins : ι)
    (ev : MmapEvent) (lost : LostRecord) :
    (reportLost (fixAtInit cfg ins ev s) ins lost).lost = s.lost := by
  unfold reportLost fixAtInit
  dsimp only
  split <;> split <;> rfl

theorem mmapEventRetry_effect (inv : Delivered cfg s)
    (hphase : s.phase = .retry ins lost todo) (hlost : s.lost = .none) :
    Effect cfg (some ins) s (mmapEventRetry cfg ins lost todo s) := by
  have hreading : s.phase.reading = some ins := by rw [hphase]; rfl
  have hwaiting : s.waiting = lost := by simp [State.waiting, hphase]
  obtain ⟨before, after, reader⟩ := (inv.tracked ins).reader
  unfold mmapEventRetry
  cases after with
  | nil =>
    obtain ⟨map, hread, _, hdone⟩ := reader.readEvent_nil
    rw [hread]
    refine .discard ins (.setMap rfl rfl (kept_of_reader reader hdone))
      (reader.upcoming?) hreading rfl ?_
    change s.lost.toList = []
    rw [hlost]
    rfl
  | cons record rest =>
    obtain ⟨map, writable, hread, _, hnext⟩ := reader.readEvent_cons
    rw [hread]
    dsimp only
    cases hpayload : record.payload with
    | sample time =>
      obtain ⟨hmap, hothers, _, hout⟩ := fixAtInit_frame cfg s ins
        ((s.ev ins).readAhead map (bytes before) record time writable)
      have hev := congrFun (reportLost_ev (fixAtInit cfg ins ((s.ev ins).readAhead map (bytes
        before) record time writable) s) ins lost)
      refine .report ins record (by simp [Record.isSample, hpayload]) (.intro reader ((congrArg
        MmapEvent.map (hev ins)).trans hmap) hnext ?_) ?_ hreading rfl ?_
      · intro other different
        exact (hev other).trans (hothers other different)
      · intro other
        refine (lostReports_reportLost other ins _ lost).trans ?_
        rw [hout, hwaiting]
      · change (reportLost _ ins lost).lost.toList = []
        rw [fixAtInit_lost, hlost]
        rfl
    | lost id count =>
      dsimp only
      split
      · rename_i handler
        exact .take ins record id count hpayload handler
          (.setMap reader rfl hnext.consume) (fun _ => rfl) hreading rfl rfl
      · rename_i handed
        refine .pass ins record (by simp [Record.isSample, hpayload]) (by simpa [takesLost,
          hpayload] using handed) (.setMap reader rfl hnext.consume) (fun other =>
          lostReports_record other _ _ _ _ _) hreading rfl ?_
        rw [hwaiting]
        rfl
    | other =>
      refine .pass ins record (by simp [Record.isSample, hpayload])
        (by simp [takesLost, hpayload]) (.setMap reader rfl hnext.consume)
        (fun other => lostReports_record other _ _ _ _ _) hreading rfl ?_
      rw [hwaiting]
      rfl

theorem popEvent_lost (cfg : Config ι δ) (s : State ι δ) (ins : ι)
    (position : Nat) (record : Record) (ev : MmapEvent) :
    (popEvent cfg ins position record ev s).lost = s.lost := by
  unfold popEvent keepPopped keepMono
  dsimp only
  split <;> split <;> split <;> rfl

theorem popEvent_effect (hphase : s.phase = .loop)
    (hmap : ev.map = (s.ev ins).map) :
    Effect cfg none s (popEvent cfg ins position record ev s) := by
  obtain ⟨hev, _, hnext⟩ := popEvent_frame cfg s ins position record ev
  obtain ⟨given, writable, _, hout⟩ := popEvent_out cfg s ins position record ev
  refine .enter ins (.of_maps ?_ ?_) (by rw [hphase]; rfl) (by rw [hnext]; rfl) ?_
  · intro other
    rw [hev]
    by_cases same : other = ins
    · rw [same, keepMono_map, hmap]
    · rw [keepMono_other cfg s ev same]
  · intro other
    rw [hout, lostReports_record]
  · rw [waiting_of_not_retry _ (by simp [hnext]), popEvent_lost,
      waiting_of_not_retry s (by simp [hphase])]

theorem processTop_effect (hphase : s.phase = .loop)
    (hstep : processTop cfg ins s = some next) : Effect cfg none s next := by
  have hwaiting : s.waiting = s.lost := waiting_of_not_retry s (by simp [hphase])
  have hclosed : s.phase.reading = none := by rw [hphase]; rfl
  cases processTop_turned hstep with
  | late | kept =>
    exact .quiet (.of_same rfl rfl) hclosed.symm (by rw [hwaiting]; rfl)
  | paused =>
    refine .quiet (.of_maps ?_ fun _ => rfl) hclosed.symm (by rw [hwaiting]; rfl)
    exact State.setEvent_field s (·.map) ins _ rfl
  | popped hevent lostEnd pause => exact popEvent_effect hphase rfl

omit [DecidableEq δ] in
theorem consumeStep_effect (hphase : s.phase = .consume ins needBreak) :
    Effect cfg none s (consumeStep cfg ins needBreak s) := by
  have hwaiting : s.waiting = s.lost := waiting_of_not_retry s (by simp [hphase])
  have hreading : s.phase.reading = some ins := by rw [hphase]; rfl
  have hkept : ∀ before after, Reader (s.ev ins).map before after →
      ∃ more, Reader (consumeMap cfg ins (s.ev ins)) before (after ++ more) := by
    intro before after reader
    refine ⟨[], ?_⟩
    rw [List.append_nil]
    unfold consumeMap
    split
    · exact reader.consume
    · exact reader
  unfold consumeStep
  dsimp only
  split
  · exact .quiet (.setMap rfl rfl hkept) hreading.symm (by rw [hwaiting]; rfl)
  · exact .quiet (.setMap rfl rfl hkept) hreading.symm (by rw [hwaiting]; rfl)

omit [DecidableEq ι] in
theorem resume_phase (needBreak : Bool) :
    (if needBreak then .unwind else .loop : Phase ι).reading = none ∧
    (if needBreak then .unwind else .loop : Phase ι).draining = true ∧
    ∀ ins lost todo, (if needBreak then .unwind else .loop : Phase ι) ≠
      .retry ins lost todo := by
  cases needBreak with
  | false => exact ⟨rfl, rfl, by simp⟩
  | true => exact ⟨rfl, rfl, by simp⟩

theorem readStep_effect (inv : Delivered cfg s)
    (hphase : s.phase = .read ins needBreak) :
    Effect cfg (some ins) s (readStep cfg ins needBreak s) := by
  have hwaiting : s.waiting = s.lost := waiting_of_not_retry s (by simp [hphase])
  have hreading : s.phase.reading = some ins := by rw [hphase]; rfl
  obtain ⟨hclosed, hdraining, hresume⟩ := @resume_phase ι needBreak
  obtain ⟨before, after, reader⟩ := (inv.tracked ins).reader
  unfold readStep
  cases after with
  | nil =>
    obtain ⟨map, hread, _, hdone⟩ := reader.readEvent_nil
    rw [hread]
    refine .leave ins (.setMap rfl rfl (kept_of_reader reader hdone))
      reader.upcoming? hreading hclosed ?_ ?_ hdraining
    · rw [hwaiting, waiting_of_not_retry _ hresume]
      rfl
    · exact inv.ordered.heap_nodup.not_mem_erase
  | cons record rest =>
    obtain ⟨map, writable, hread, _, hnext⟩ := reader.readEvent_cons
    rw [hread]
    dsimp only
    cases hpayload : record.payload with
    | sample time =>
      obtain ⟨hev, _⟩ := flushLost_frame ins (s.setEvent ins
        ((s.ev ins).readAhead map (bytes before) record time writable))
      have hself := (congrFun hev ins).trans (s.setEvent_self ins _)
      refine .report ins record (by simp [Record.isSample, hpayload]) (.intro reader (congrArg
        MmapEvent.map hself) hnext ?_) ?_ hreading hclosed ?_
      · intro other different
        exact (congrFun hev other).trans (s.setEvent_other _ different)
      · intro other
        refine (lostReports_flushLost other ins _).trans ?_
        rw [hwaiting]
        rfl
      · rw [waiting_of_not_retry _ hresume]
        exact flushLost_lost ins _
    | lost id count =>
      dsimp only
      split
      · rename_i handler
        exact .take ins record id count hpayload handler
          (.setMap reader rfl hnext) (fun _ => rfl) hreading rfl rfl
      · rename_i handed
        refine .pass ins record (by simp [Record.isSample, hpayload]) (by simpa [takesLost,
          hpayload] using handed) (.setMap reader rfl hnext) (fun other => lostReports_record other
          _ _ _ _ _) hreading rfl ?_
        rw [hwaiting]
        rfl
    | other =>
      refine .pass ins record (by simp [Record.isSample, hpayload]) (by simp [takesLost, hpayload])
        (.setMap reader rfl hnext) (fun other => lostReports_record other _ _ _ _ _) hreading rfl ?_
      rw [hwaiting]
      rfl

omit [DecidableEq δ] in
theorem unwindStep_effect (inv : Delivered cfg s) (hphase : s.phase = .unwind) :
    Effect cfg none s (unwindStep s) := by
  have hwaiting : s.waiting = s.lost := waiting_of_not_retry s (by simp [hphase])
  have hclosed : s.phase.reading = none := by rw [hphase]; rfl
  cases hheap : s.heap with
  | nil =>
    simp only [unwindStep, hheap]
    exact .quiet (.of_same rfl rfl) hclosed.symm (by rw [hwaiting]; rfl)
  | cons ins rest =>
    have hheld : Held s ins := ⟨by simp [hheap], by simp [hphase, Phase.busy]⟩
    obtain ⟨before, record, after, event, reader, htail, hevent, hsame,
      hsample, _⟩ := (inv.tracked ins).ahead hheld
    have hback := (reader.unreadEvent htail (Record.size_eq_of_untimed_eq hsame)).consume
    simp only [unwindStep, hheap, hevent]
    refine .giveBack ins record hsample ⟨⟨before, after, ?_, reader⟩, ?_⟩ ?_
      (fun _ => rfl) hclosed hclosed rfl
    · exact (s.setMap_map_self ins _).symm ▸ hback
    · intro other different
      exact .of_map (congrArg MmapEvent.map (s.setMap_map_other _ different).symm)
    · intro other different
      exact .of_map (congrArg MmapEvent.map (s.setMap_map_other _ different))

structure Tallied (cfg : Config ι δ) (s : State ι δ) : Prop where
  delivered : Delivered cfg s
  listed : ∀ ins, ins ∈ s.heap ∨ ins ∈ s.phase.todo → ins ∈ cfg.heapEventList
  filling : s.phase.todo ≠ [] → s.lost = .none

theorem step_effect (tallied : Tallied cfg s)
    (hstep : step cfg action s = some next) :
    Effect cfg (readBy action s) s next := by
  have inv := tallied.delivered
  cases step_stepped hstep with
  | arrive appended =>
    refine .quiet (.setMap rfl rfl ?_) rfl rfl
    intro before after reader
    exact ⟨[_], (reader.append appended).1⟩
  | scribble old => cases (inv.plain _).symm.trans old
  | call target targetTm hphase => exact orderProcess_effect hphase target targetTm
  | target hphase =>
    rw [readBy, hphase]
    exact targetStep_effect hphase
  | filled hphase =>
    rw [readBy, hphase]
    refine .quiet (.of_same rfl rfl) (by rw [hphase]; rfl) ?_
    rw [waiting_of_not_retry s (by simp [hphase])]
    rfl
  | init hphase =>
    rw [readBy, hphase]
    exact mmapEventInit_effect hphase (tallied.filling (by simp [hphase, Phase.todo]))
  | retry hphase =>
    rw [readBy, hphase]
    exact mmapEventRetry_effect inv hphase (tallied.filling (by simp [hphase, Phase.todo]))
  | empty hphase =>
    rw [readBy, hphase]
    refine .quiet (.of_same rfl rfl) (by rw [hphase]; rfl) ?_
    rw [waiting_of_not_retry s (by simp [hphase])]
    rfl
  | top hphase _ _ htop =>
    rw [readBy, hphase]
    exact processTop_effect hphase htop
  | consume hphase =>
    rw [readBy, hphase]
    exact consumeStep_effect hphase
  | read hphase =>
    rw [readBy, hphase]
    exact readStep_effect inv hphase
  | unwind hphase =>
    rw [readBy, hphase]
    exact unwindStep_effect inv hphase

end Effects

end PerfProf.Order
