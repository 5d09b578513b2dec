import PerfProf.Order.Sorted

namespace PerfProf.Order

def Record.untimed (record : Record) : Record := record.withTime 0

@[simp] theorem Record.untimed_withTime (record : Record) (time : Nat) :
    (record.withTime time).untimed = record.untimed := by
  cases hpayload : record.payload with
  | sample old => simp [untimed, withTime, hpayload]
  | lost id count => simp [untimed, withTime, hpayload]
  | other => simp [untimed, withTime, hpayload]

theorem Record.size_eq_of_untimed_eq {left right : Record}
    (same : left.untimed = right.untimed) : left.size = right.size := by
  have hsize := congrArg Record.size same
  simpa [untimed] using hsize

structure Reader (map : Mmap) (before after : List Record) : Prop where
  plain : map.overwrite = false
  mapped : 2 ≤ map.refcnt
  log : map.log = before ++ after
  start : map.start = bytes before
  prev : map.prev = bytes before
  tail : map.tail ≤ bytes before
  room : bytes map.log ≤ map.tail + map.mask + 1

namespace Reader

theorem consume (reader : Reader map before after) :
    Reader map.consume before after := by
  have hmapped := reader.mapped
  have hprev := reader.prev
  have htail := reader.tail
  have hroom := reader.room
  unfold Mmap.consume
  dsimp only
  rw [if_neg (by omega)]
  exact ⟨reader.plain, hmapped, reader.log, reader.start, hprev,
    by dsimp only; omega, by dsimp only; omega⟩

theorem readInit (reader : Reader map before after) :
    Reader map.readInit.1 before after := by
  have hmapped := reader.mapped
  have hprev := reader.prev
  have htail := reader.tail
  have hroom := reader.room
  unfold Mmap.readInit
  rw [if_neg (by omega)]
  have hsame : Reader { map with start := map.prev, endPos := map.readHead } before after :=
    ⟨reader.plain, hmapped, reader.log, hprev, hprev, htail, hroom⟩
  dsimp only
  split
  · exact hsame
  · rw [if_neg (by simp only [Mmap.readHead]; omega)]
    exact hsame

theorem readEvent_nil (reader : Reader map before []) :
    ∃ next, map.readEvent = (next, none) ∧
      next.tail = map.tail ∧
      Reader next.readDone before [] := by
  have hmapped := reader.mapped
  have hstart := reader.start
  have hlog := reader.log
  have hhead : map.readHead = bytes before := by rw [Mmap.readHead, hlog, List.append_nil]
  refine ⟨{ map with endPos := map.readHead, prev := map.start }, ?_, rfl, ?_⟩
  · unfold Mmap.readEvent
    rw [if_neg (by omega)]
    simp only [Mmap.read]
    rw [if_pos (by omega)]
  · unfold Mmap.readDone
    rw [if_neg (by dsimp only; omega)]
    exact ⟨reader.plain, hmapped, hlog, hstart, hhead, reader.tail, reader.room⟩

theorem readEvent_cons (reader : Reader map before (record :: after)) :
    ∃ next writable,
      map.readEvent = (next, some (bytes before, record, writable)) ∧
      next.tail = map.tail ∧
      Reader next (before ++ [record]) after := by
  have hmapped := reader.mapped
  have hstart := reader.start
  have hsize := record.header_le
  have htail := reader.tail
  have hhead : map.readHead = bytes before + record.size + bytes after := by
    rw [Mmap.readHead, reader.log, bytes_append, bytes_cons]
    omega
  have hat : recordAt map.log map.start = some record := by
    rw [reader.log, hstart]
    exact recordAt_prefix before after record
  refine ⟨{ map with
      endPos := map.readHead
      start := map.start + record.size
      prev := map.start + record.size },
    Mmap.straddles { map with endPos := map.readHead } record, ?_, rfl, ?_⟩
  · unfold Mmap.readEvent
    rw [if_neg (by omega)]
    simp only [Mmap.read]
    rw [if_neg (by omega)]
    simp only [hat]
    rw [if_neg (by omega), hstart]
  · exact ⟨reader.plain, hmapped, by simp [reader.log], by simp [hstart],
      by simp [hstart], by simp; omega, reader.room⟩

theorem unreadEvent (reader : Reader map (before ++ [record]) after)
    (htail : map.tail ≤ bytes before) (hsize : event.size = record.size) :
    Reader (map.unreadEvent event) before (record :: after) := by
  have hmapped := reader.mapped
  have hstart : map.start = bytes before + record.size := by simpa using reader.start
  unfold Mmap.unreadEvent
  rw [if_neg (by omega)]
  exact ⟨reader.plain, hmapped, by simp [reader.log], by dsimp only; omega,
    by dsimp only; omega, htail, reader.room⟩

theorem append (reader : Reader map before after)
    (appended : map.append record = some next) :
    Reader next before (after ++ [record]) ∧ next.tail = map.tail := by
  unfold Mmap.append at appended
  split at appended
  · rename_i hroom
    cases appended
    refine ⟨⟨reader.plain, reader.mapped, by simp [reader.log], reader.start, reader.prev,
      reader.tail, ?_⟩, rfl⟩
    simp only [Mmap.readHead, bytes_append, bytes_cons, bytes_nil] at hroom ⊢
    omega
  · cases appended

end Reader

variable {ι δ : Type}

def takesLost (cfg : Config ι δ) (ins : ι) (record : Record) : Bool :=
  match record.payload with
  | .lost _ _ => cfg.hasLost (cfg.dev ins)
  | _ => false

def deliverable (cfg : Config ι δ) (ins : ι) :
    Nat → List Record → List (Nat × Record)
  | _, [] => []
  | position, record :: rest =>
    (if takesLost cfg ins record then [] else [(position, record.untimed)]) ++
      deliverable cfg ins (position + record.size) rest

theorem deliverable_append (cfg : Config ι δ) (ins : ι) (position : Nat)
    (left right : List Record) :
    deliverable cfg ins position (left ++ right) =
      deliverable cfg ins position left ++
        deliverable cfg ins (position + bytes left) right := by
  induction left generalizing position with
  | nil => simp [deliverable]
  | cons head tail ih =>
    simp only [List.cons_append, deliverable, bytes_cons, List.append_assoc]
    rw [ih, Nat.add_assoc]

theorem deliverable_singleton (cfg : Config ι δ) (ins : ι) (position : Nat)
    (record : Record) :
    deliverable cfg ins position [record] =
      if takesLost cfg ins record then
        []
      else [(position, record.untimed)] := by
  simp [deliverable]

variable {record : Record}

theorem takesLost_sample (cfg : Config ι δ) (ins : ι)
    (hpayload : record.payload = .sample time) :
    takesLost cfg ins record = false := by
  simp [takesLost, hpayload]

theorem Record.isSample_iff :
    record.isSample = true ↔ ∃ time, record.payload = .sample time := by
  cases hpayload : record.payload <;> simp [isSample, hpayload]

theorem takesLost_of_isSample (cfg : Config ι δ) (ins : ι)
    (sample : record.isSample) : takesLost cfg ins record = false := by
  obtain ⟨time, hpayload⟩ := Record.isSample_iff.mp sample
  exact takesLost_sample cfg ins hpayload

theorem deliverable_snoc (htaken : takesLost cfg ins record = false) :
    deliverable cfg ins 0 (before ++ [record]) =
      deliverable cfg ins 0 before ++ [(bytes before, record.untimed)] := by
  rw [deliverable_append, deliverable_singleton, htaken, Nat.zero_add]
  rfl

theorem deliverable_snoc_lost (htaken : takesLost cfg ins record = true) :
    deliverable cfg ins 0 (before ++ [record]) =
      deliverable cfg ins 0 before := by
  rw [deliverable_append, deliverable_singleton, htaken]
  simp

theorem deliverable_bounds
    (member : entry ∈ deliverable cfg ins position records) :
    position ≤ entry.1 ∧ entry.1 < position + bytes records := by
  induction records generalizing position with
  | nil => simp [deliverable] at member
  | cons head tail ih =>
    have hpos := head.size_pos
    rw [deliverable, List.mem_append] at member
    rw [bytes_cons]
    rcases member with member | member
    · split at member
      · cases member
      · rw [List.mem_singleton.mp member]
        omega
    · have := ih member
      omega

theorem deliverable_increasing (cfg : Config ι δ) (ins : ι) (position : Nat)
    (records : List Record) :
    (deliverable cfg ins position records).Pairwise (·.1 < ·.1) := by
  induction records generalizing position with
  | nil => simp [deliverable]
  | cons head tail ih =>
    have hpos := head.size_pos
    rw [deliverable, List.pairwise_append]
    refine ⟨?_, ih _, ?_⟩
    · split <;> simp
    · intro first hfirst later hlater
      have hbound := deliverable_bounds hlater
      split at hfirst
      · cases hfirst
      · rw [List.mem_singleton.mp hfirst]
        omega

def Phase.busy : Phase ι → Option ι
  | .consume ins _ | .read ins _ => some ins
  | _ => none

def Phase.resting : Phase ι → Bool
  | .idle | .target _ _ => true
  | _ => false

def Held (s : State ι δ) (ins : ι) : Prop :=
  ins ∈ s.heap ∧ s.phase.busy ≠ some ins

section Invariant

variable [DecidableEq ι]

def deliveries (ins : ι) (out : List (Output ι)) : List (Nat × Record) :=
  out.filterMap fun
    | .record source position record _ =>
      if source = ins then some (position, record.untimed) else none
    | .lost _ _ _ _ => none

def Free (cfg : Config ι δ) (s : State ι δ) (ins : ι) : Prop :=
  ∃ before after, Reader (s.ev ins).map before after ∧
    deliveries ins s.out = deliverable cfg ins 0 before

def Ahead (cfg : Config ι δ) (s : State ι δ) (ins : ι) : Prop :=
  ∃ before record after event, Reader (s.ev ins).map (before ++ [record]) after ∧
      (s.ev ins).map.tail ≤ bytes before ∧
      (s.ev ins).event = some (bytes before, event) ∧
      event.untimed = record.untimed ∧ record.isSample ∧
      deliveries ins s.out = deliverable cfg ins 0 before

structure Tracked (cfg : Config ι δ) (s : State ι δ) (ins : ι) : Prop where
  ahead : Held s ins → Ahead cfg s ins
  free : ¬ Held s ins → Free cfg s ins

structure Delivered (cfg : Config ι δ) (s : State ι δ) : Prop where
  ordered : Ordered cfg s
  tracked : ∀ ins, Tracked cfg s ins
  current : ∀ ins, s.phase.busy = some ins → ins ∈ s.heap
  resting : s.phase.resting → s.heap = []

structure Located (cfg : Config ι δ) (s : State ι δ) : Prop where
  tracked : ∀ ins, Tracked cfg s ins
  current : ∀ ins, s.phase.busy = some ins → ins ∈ s.heap
  resting : s.phase.resting → s.heap = []

theorem deliveries_record (ins : ι) (out : List (Output ι)) (source : ι)
    (position : Nat) (record : Record) (writable : Bool) :
    deliveries ins (out ++ [.record source position record writable]) =
      deliveries ins out ++
        if source = ins then [(position, record.untimed)] else [] := by
  unfold deliveries
  by_cases same : source = ins
  · simp [same]
  · simp [same]

theorem deliveries_lost (ins : ι) (out : List (Output ι)) (source : ι)
    (lost : LostRecord) (start stop : Nat) :
    deliveries ins (out ++ [.lost source lost start stop]) =
      deliveries ins out := by
  simp [deliveries]

@[simp] theorem deliveries_reportLost (ins source : ι) (s : State ι δ)
    (lost : LostRecord) :
    deliveries ins (reportLost s source lost).out = deliveries ins s.out := by
  unfold reportLost
  split
  · rfl
  · exact deliveries_lost ins s.out source lost _ _

@[simp] theorem deliveries_flushLost (ins source : ι) (s : State ι δ) :
    deliveries ins (flushLost source s).out = deliveries ins s.out := by
  unfold flushLost
  split
  · rfl
  · exact deliveries_reportLost ins source s s.lost

variable {cfg : Config ι δ} {s next : State ι δ} {ins : ι}

theorem Delivered.located (inv : Delivered cfg s) : Located cfg s :=
  ⟨inv.tracked, inv.current, inv.resting⟩

theorem Tracked.congr (tracked : Tracked cfg s ins)
    (hmap : (next.ev ins).map = (s.ev ins).map)
    (hevent : (next.ev ins).event = (s.ev ins).event)
    (hout : deliveries ins next.out = deliveries ins s.out)
    (hheld : Held next ins ↔ Held s ins) : Tracked cfg next ins where
  ahead := by
    intro held
    have hahead := tracked.ahead (hheld.mp held)
    unfold Ahead at hahead ⊢
    rw [hmap, hevent, hout]
    exact hahead
  free := by
    intro free
    have hfree := tracked.free (fun held => free (hheld.mpr held))
    unfold Free at hfree ⊢
    rw [hmap, hout]
    exact hfree

theorem Located.update (inv : Located cfg s) (ins : ι)
    (hself : Tracked cfg next ins)
    (hev : ∀ other, other ≠ ins → next.ev other = s.ev other)
    (hout : ∀ other, other ≠ ins →
      deliveries other next.out = deliveries other s.out)
    (hheld : ∀ other, other ≠ ins → (Held next other ↔ Held s other))
    (hcurrent : ∀ other, next.phase.busy = some other → other ∈ next.heap)
    (hresting : next.phase.resting → next.heap = []) : Located cfg next where
  tracked := by
    intro other
    by_cases same : other = ins
    · rw [same]
      exact hself
    · apply (inv.tracked other).congr
      · rw [hev other same]
      · rw [hev other same]
      · exact hout other same
      · exact hheld other same
  current := hcurrent
  resting := hresting

theorem Located.setMap (inv : Located cfg s)
    (hself : Tracked cfg (s.setMap ins map) ins) :
    Located cfg (s.setMap ins map) :=
  inv.update ins hself (fun _ different => s.setMap_map_other map different)
    (fun _ _ => rfl) (fun _ _ => Iff.rfl) inv.current inv.resting

theorem Located.same_sources (inv : Located cfg s)
    (hmap : ∀ ins, (next.ev ins).map = (s.ev ins).map)
    (hevent : ∀ ins, (next.ev ins).event = (s.ev ins).event)
    (hout : next.out = s.out) (hheap : next.heap = s.heap)
    (hbusy : next.phase.busy = s.phase.busy)
    (hresting : next.phase.resting → next.heap = []) : Located cfg next where
  tracked := by
    intro ins
    apply (inv.tracked ins).congr (hmap ins) (hevent ins)
    · rw [hout]
    · simp [Held, hheap, hbusy]
  current := by
    intro ins busy
    rw [hheap]
    rw [hbusy] at busy
    exact inv.current ins busy
  resting := hresting

theorem Tracked.reader (tracked : Tracked cfg s ins) :
    ∃ before after, Reader (s.ev ins).map before after := by
  by_cases held : Held s ins
  · obtain ⟨before, record, after, _, reader, _⟩ := tracked.ahead held
    exact ⟨_, _, reader⟩
  · obtain ⟨before, after, reader, _⟩ := tracked.free held
    exact ⟨_, _, reader⟩

theorem Ahead.intro (hmap : (s.ev ins).map = map)
    (hreader : Reader map (before ++ [record]) after)
    (htail : map.tail ≤ bytes before)
    (hevent : (s.ev ins).event = some (bytes before, event))
    (hsame : event.untimed = record.untimed) (hsample : record.isSample)
    (hdelivered : deliveries ins s.out = deliverable cfg ins 0 before) :
    Ahead cfg s ins :=
  ⟨before, record, after, event, hmap.symm ▸ hreader, hmap.symm ▸ htail, hevent,
    hsame, hsample, hdelivered⟩

theorem Tracked.of_free (free : Free cfg s ins) (hheld : ¬ Held s ins) :
    Tracked cfg s ins :=
  ⟨fun held => absurd held hheld, fun _ => free⟩

theorem Tracked.of_ahead (ahead : Ahead cfg s ins) (hheld : Held s ins) :
    Tracked cfg s ins :=
  ⟨fun _ => ahead, fun free => absurd hheld free⟩

theorem Free.setMap (free : Free cfg s ins)
    (hmap : ∀ before after, Reader (s.ev ins).map before after →
      ∃ later, Reader map before later) :
    Free cfg (s.setMap ins map) ins := by
  obtain ⟨before, after, reader, hdelivered⟩ := free
  obtain ⟨later, hreader⟩ := hmap before after reader
  refine ⟨before, later, ?_, hdelivered⟩
  rw [State.setMap_map_self]
  exact hreader

section

variable (inv : Located cfg s)

include inv

theorem Located.arrive (appended : (s.ev ins).map.append record = some map) :
    Located cfg (s.setMap ins map) := by
  refine inv.setMap ⟨fun held => ?_, fun free => ?_⟩
  · obtain ⟨before, sample, after, event, reader, htail, hahead⟩ := (inv.tracked ins).ahead held
    obtain ⟨hreader, hsame⟩ := reader.append appended
    refine ⟨before, sample, after ++ [record], event, ?_, ?_, ?_⟩
    · rw [State.setMap_map_self]
      exact hreader
    · rw [State.setMap_map_self, hsame]
      exact htail
    · rw [State.setMap_event]
      exact hahead
  · apply ((inv.tracked ins).free free).setMap
    intro before after reader
    exact ⟨_, (reader.append appended).1⟩

theorem Located.free_of_resting (hphase : s.phase.resting) (ins : ι) :
    ¬ Held s ins := by
  rintro ⟨member, _⟩
  rw [inv.resting hphase] at member
  cases member

theorem Located.beginHeap (hphase : s.phase.resting) (target : Option ι)
    (targetEnd targetTm : Nat) :
    Located cfg (beginHeap cfg target targetEnd targetTm s) where
  tracked := by
    intro ins
    refine (inv.tracked ins).congr rfl rfl rfl ?_
    constructor
    · rintro ⟨member, _⟩
      cases member
    · intro held
      exact absurd held (inv.free_of_resting hphase ins)
  current := by
    intro ins busy
    cases busy
  resting := fun _ => rfl

theorem Located.readInit (hfree : ¬ Held s ins) :
    Located cfg (s.setMap ins (s.ev ins).map.readInit.1) := by
  refine inv.setMap (Tracked.of_free ?_ hfree)
  apply ((inv.tracked ins).free hfree).setMap
  intro before after reader
  exact ⟨after, reader.readInit⟩

theorem Located.orderProcess (hphase : s.phase = .idle) (target : Option ι)
    (targetTm : Nat) : Located cfg (orderProcess cfg target targetTm s) := by
  have hresting : s.phase.resting := by rw [hphase]; rfl
  cases target with
  | none => exact inv.beginHeap hresting none 0 targetTm
  | some ins =>
    have hmap := inv.readInit (inv.free_of_resting hresting ins)
    simp only [Order.orderProcess]
    split
    · refine hmap.same_sources (fun _ => rfl) (fun _ => rfl) rfl rfl
        ?_ (fun _ => inv.resting hresting)
      change none = s.phase.busy
      rw [hphase]
      rfl
    · exact hmap

theorem Located.targetStep (hphase : s.phase = .target ins targetTm) :
    Located cfg (targetStep cfg ins targetTm s) := by
  have hresting : s.phase.resting := by rw [hphase]; rfl
  unfold Order.targetStep
  split
  · refine inv.same_sources (fun _ => rfl) (fun _ => rfl) rfl rfl
      ?_ (fun _ => inv.resting hresting)
    rw [hphase]
    rfl
  · exact inv.beginHeap hresting _ _ _

theorem Located.mmapEventInit (ordered : Ordered cfg s)
    (hphase : s.phase = .heapInit (ins :: todo)) :
    Located cfg (mmapEventInit ins todo s) := by
  have hnodup : (s.heap ++ ins :: todo).Nodup := by
    simpa [hphase, Phase.todo] using ordered.nodup
  have hfree : ¬ Held s ins := fun held => nodup_fresh hnodup held.1
  have hmap := inv.readInit hfree
  have hbusy : none = s.phase.busy := by rw [hphase]; rfl
  simp only [Order.mmapEventInit]
  split
  · exact inv.same_sources (fun _ => rfl) (fun _ => rfl) rfl rfl hbusy
      (by simp [State.goto, Phase.resting])
  · split
    · exact hmap.same_sources (fun _ => rfl) (fun _ => rfl) rfl rfl hbusy
        (by simp [State.goto, Phase.resting])
    · exact hmap.same_sources (fun _ => rfl) (fun _ => rfl) rfl rfl hbusy
        (by simp [State.goto, Phase.resting])

end

variable [DecidableEq δ]

theorem fixAtInit_frame (cfg : Config ι δ) (s : State ι δ) (ins : ι)
    (ev : MmapEvent) :
    ((fixAtInit cfg ins ev s).ev ins).map = ev.map ∧
    (∀ other, other ≠ ins → (fixAtInit cfg ins ev s).ev other = s.ev other) ∧
    (fixAtInit cfg ins ev s).heap = s.heap ∧
    (fixAtInit cfg ins ev s).out = s.out := by
  unfold fixAtInit
  dsimp only
  split
  · refine ⟨?_, fun other different => State.setEvent_other s _ different, rfl, rfl⟩
    simp [State.countFixed, fixOutOfOrder]
  · refine ⟨?_, fun other different => State.setEvent_other s _ different, rfl, rfl⟩
    simp

theorem fixAtInit_event (cfg : Config ι δ) (s : State ι δ) (ins : ι)
    (ev : MmapEvent) (hevent : ev.event = some (position, record)) :
    ∃ event, ((fixAtInit cfg ins ev s).ev ins).event = some (position, event) ∧
      event.untimed = record.untimed := by
  unfold fixAtInit
  dsimp only
  split
  · simp only [State.countFixed, State.setEvent_self, fixOutOfOrder, hevent]
    exact ⟨_, rfl, Record.untimed_withTime _ _⟩
  · rw [State.setEvent_self]
    exact ⟨_, hevent, rfl⟩

structure WorksOn (ins : ι) (s next : State ι δ) : Prop where
  ev : ∀ other, other ≠ ins → next.ev other = s.ev other
  out : ∀ other, other ≠ ins → deliveries other next.out = deliveries other s.out
  heap : ∀ other, other ≠ ins → (other ∈ next.heap ↔ other ∈ s.heap)
  before : ∀ other, other ≠ ins → s.phase.busy ≠ some other
  after : ∀ other, other ≠ ins → next.phase.busy ≠ some other
  running : next.phase.resting = false

omit [DecidableEq ι] [DecidableEq δ] in
theorem only_busy {phase : Phase ι}
    (hbusy : phase.busy = none ∨ phase.busy = some ins) :
    ∀ other, other ≠ ins → phase.busy ≠ some other := by
  intro other different
  rcases hbusy with hbusy | hbusy
  · simp [hbusy]
  · simpa [hbusy] using Ne.symm different

omit [DecidableEq δ] in
theorem Located.works_on (inv : Located cfg s) (ins : ι)
    (works : WorksOn ins s next) (hself : Tracked cfg next ins)
    (hcurrent : next.phase.busy = some ins → ins ∈ next.heap) :
    Located cfg next := by
  refine inv.update ins hself works.ev works.out ?_ ?_ ?_
  · intro other different
    simp [Held, works.heap other different, works.before other different,
      works.after other different]
  · intro other busy
    by_cases same : other = ins
    · rw [same] at busy ⊢
      exact hcurrent busy
    · exact absurd busy (works.after other same)
  · intro resting
    rw [works.running] at resting
    cases resting

theorem deliveries_other (different : other ≠ ins) (out : List (Output ι))
    (position : Nat) (record : Record) (writable : Bool) :
    deliveries other (out ++ [.record ins position record writable]) =
      deliveries other out := by
  rw [deliveries_record, if_neg (Ne.symm different), List.append_nil]

theorem deliveries_self (ins : ι) (out : List (Output ι)) (position : Nat)
    (record : Record) (writable : Bool) :
    deliveries ins (out ++ [.record ins position record writable]) =
      deliveries ins out ++ [(position, record.untimed)] := by
  rw [deliveries_record, if_pos rfl]

omit [DecidableEq δ] in
theorem Located.pass (inv : Located cfg s)
    (hmap : next.ev = (s.setMap ins map).ev) (hheap : next.heap = s.heap)
    (hreader : Reader map before after)
    (hself : deliveries ins next.out = deliverable cfg ins 0 before)
    (hother : ∀ other, other ≠ ins →
      deliveries other next.out = deliveries other s.out)
    (hbefore : ∀ other, other ≠ ins → s.phase.busy ≠ some other)
    (hafter : ∀ other, other ≠ ins → next.phase.busy ≠ some other)
    (hrunning : next.phase.resting = false) (hfree : ¬ Held next ins)
    (hcurrent : next.phase.busy = some ins → ins ∈ s.heap) :
    Located cfg next := by
  refine inv.works_on ins ⟨?_, hother, ?_, hbefore, hafter, hrunning⟩
    (Tracked.of_free ⟨before, after, ?_, hself⟩ hfree) ?_
  · intro other different
    rw [hmap]
    exact s.setMap_map_other map different
  · intro other _
    rw [hheap]
  · rw [hmap, State.setMap_map_self]
    exact hreader
  · rw [hheap]
    exact hcurrent

theorem Located.mmapEventRetry (inv : Located cfg s) (ordered : Ordered cfg s)
    (hphase : s.phase = .retry ins lost todo) :
    Located cfg (mmapEventRetry cfg ins lost todo s) := by
  have hnodup : (s.heap ++ ins :: todo).Nodup := by
    simpa [hphase, Phase.todo] using ordered.nodup
  have hfresh := nodup_fresh hnodup
  have hbusy : ∀ other, other ≠ ins → s.phase.busy ≠ some other := by simp [hphase, Phase.busy]
  have hfree : ¬ Held s ins := fun held => hfresh held.1
  obtain ⟨before, after, reader, hdelivered⟩ := (inv.tracked ins).free hfree
  unfold Order.mmapEventRetry
  cases after with
  | nil =>
    obtain ⟨map, hread, _, hdone⟩ := reader.readEvent_nil
    rw [hread]
    exact inv.pass rfl rfl hdone hdelivered (fun _ _ => rfl) hbusy (by simp [State.goto,
      Phase.busy]) rfl (fun held => hfresh held.1) (by simp [State.goto, Phase.busy])
  | cons record rest =>
    obtain ⟨map, writable, hread, htail, hnext⟩ := reader.readEvent_cons
    rw [hread]
    cases hpayload : record.payload with
    | sample time =>
      simp only [hpayload]
      obtain ⟨hmap, hothers, hheap, hout⟩ := fixAtInit_frame cfg s ins
        ((s.ev ins).readAhead map (bytes before) record time writable)
      obtain ⟨event, hevent, hsame⟩ := fixAtInit_event cfg s ins
        ((s.ev ins).readAhead map (bytes before) record time writable) rfl
      have hev := congrFun (reportLost_ev (fixAtInit cfg ins ((s.ev ins).readAhead map (bytes
        before) record time writable) s) ins lost)
      refine inv.works_on ins ⟨?_, ?_, ?_, hbusy, ?_, rfl⟩ (Tracked.of_ahead ?_ ?_) ?_
      · intro other different
        exact (hev other).trans (hothers other different)
      · intro other _
        refine (deliveries_reportLost other ins _ lost).trans ?_
        rw [hout]
      · intro other different
        simp [State.goto, State.push, hheap, different]
      · simp [State.goto, Phase.busy]
      · refine Ahead.intro ((congrArg MmapEvent.map (hev ins)).trans hmap) hnext (Nat.le_trans
          (Nat.le_of_eq htail) reader.tail) ((congrArg MmapEvent.event (hev ins)).trans hevent)
          hsame (by simp [Record.isSample, hpayload]) ?_
        refine (deliveries_reportLost ins ins _ lost).trans ?_
        rw [hout]
        exact hdelivered
      · exact ⟨by simp [State.goto, State.push], by simp [State.goto, Phase.busy]⟩
      · simp [State.goto, Phase.busy]
    | lost id count =>
      simp only [hpayload]
      split
      · rename_i taken
        exact inv.pass rfl rfl hnext.consume (hdelivered.trans (deliverable_snoc_lost (by
            simp [takesLost, hpayload, taken])).symm) (fun _ _ => rfl) hbusy (by simp [State.goto,
            Phase.busy]) rfl (fun held => hfresh held.1) (by simp [State.goto, Phase.busy])
      · rename_i handed
        refine inv.pass rfl rfl hnext.consume ?_ (fun _ different => deliveries_other
          different _ _ _ _) hbusy (by simp [State.goto, Phase.busy]) rfl (fun held => hfresh
          held.1) (by simp [State.goto, Phase.busy])
        rw [deliverable_snoc (by simpa [takesLost, hpayload] using handed), ← hdelivered]
        exact deliveries_self ins _ _ _ _
    | other =>
      simp only [hpayload]
      refine inv.pass rfl rfl hnext.consume ?_ (fun _ different => deliveries_other
        different _ _ _ _) hbusy (by simp [State.goto, Phase.busy]) rfl (fun held => hfresh held.1)
        (by simp [State.goto, Phase.busy])
      rw [deliverable_snoc (by simp [takesLost, hpayload]), ← hdelivered]
      exact deliveries_self ins _ _ _ _

theorem keepMono_map (cfg : Config ι δ) (s : State ι δ) (ins : ι)
    (ev : MmapEvent) : ((keepMono cfg ins ev s).ev ins).map = ev.map := by
  unfold keepMono
  split
  · simp [State.countFixed, fixOutOfOrder]
  · simp

theorem popEvent_out (cfg : Config ι δ) (s : State ι δ) (ins : ι)
    (position : Nat) (record : Record) (ev : MmapEvent) :
    ∃ event writable, event.untimed = record.untimed ∧
      (popEvent cfg ins position record ev s).out =
        s.out ++ [.record ins position event writable] :=
    by
  have hout : (keepPopped cfg ins ((keepMono cfg ins ev s).ev ins).time (keepMono cfg ins ev s)).out
      = s.out := (keepPopped_frame cfg _ ins _).2.2.trans (keepMono_frame cfg s ins ev).2.2.2
  refine ⟨if ev.time < ev.eventMonoTime then record.withTime ev.eventMonoTime
      else record,
    ((keepPopped cfg ins ((keepMono cfg ins ev s).ev ins).time
      (keepMono cfg ins ev s)).ev ins).writable, ?_, ?_⟩
  · split
    · exact Record.untimed_withTime record _
    · rfl
  · simp only [popEvent, State.emit, State.goto]
    rw [hout]

theorem Located.popEvent (inv : Located cfg s) (hphase : s.phase = .loop)
    (member : ins ∈ s.heap)
    (hevent : (s.ev ins).event = some (position, record))
    (hmap : ev.map = (s.ev ins).map) :
    Located cfg (popEvent cfg ins position record ev s) := by
  have hheld : Held s ins := ⟨member, by simp [hphase, Phase.busy]⟩
  obtain ⟨before, sample, after, event, hreader, _, hahead, hsame, hsample,
    hdelivered⟩ := (inv.tracked ins).ahead hheld
  obtain ⟨hev, hheap, hnext⟩ := popEvent_frame cfg s ins position record ev
  obtain ⟨given, writable, hgiven, hout⟩ := popEvent_out cfg s ins position record ev
  rw [hevent] at hahead
  cases hahead
  refine inv.works_on ins ⟨?_, ?_, ?_, ?_, ?_, ?_⟩
    (Tracked.of_free ⟨before ++ [sample], after, ?_, ?_⟩ ?_) ?_
  · intro other different
    rw [hev]
    exact keepMono_other cfg s ev different
  · intro other different
    rw [hout]
    exact deliveries_other different _ _ _ _
  · intro other _
    rw [hheap]
  · simp [hphase, Phase.busy]
  · exact only_busy (.inr (by rw [hnext]; rfl))
  · rw [hnext]
    rfl
  · rw [hev, keepMono_map, hmap]
    exact hreader
  · have htaken := takesLost_of_isSample cfg ins hsample
    rw [hout, deliveries_self, deliverable_snoc htaken, hdelivered, hgiven, hsame]
  · rintro ⟨_, hbusy⟩
    exact hbusy (by rw [hnext]; rfl)
  · intro _
    rw [hheap]
    exact member

theorem Located.processTop (inv : Located cfg s) (hphase : s.phase = .loop)
    (member : ins ∈ s.heap) (hstep : processTop cfg ins s = some next) :
    Located cfg next := by
  have hbusy : Phase.unwind.busy = s.phase.busy := by rw [hphase]; rfl
  cases processTop_turned hstep with
  | late | kept =>
    exact inv.same_sources (fun _ => rfl) (fun _ => rfl) rfl rfl hbusy
      (by simp [State.stop, State.goto, Phase.resting])
  | paused =>
    exact inv.same_sources (State.setEvent_field s (·.map) ins _ rfl)
      (State.setEvent_field s (·.event) ins _ rfl) rfl rfl hbusy
      (by simp [State.stop, Phase.resting])
  | popped hevent lostEnd pause => exact inv.popEvent hphase member hevent rfl

omit [DecidableEq δ] in
theorem Located.consumeStep (inv : Located cfg s)
    (hphase : s.phase = .consume ins needBreak) :
    Located cfg (consumeStep cfg ins needBreak s) := by
  have hbusy : s.phase.busy = some ins := by rw [hphase]; rfl
  have hfree : ¬ Held s ins := fun held => held.2 hbusy
  obtain ⟨before, after, reader, hdelivered⟩ := (inv.tracked ins).free hfree
  have hreader : Reader (consumeMap cfg ins (s.ev ins)) before after := by
    unfold consumeMap
    split
    · exact reader.consume
    · exact reader
  have hothers := only_busy (.inr hbusy)
  unfold Order.consumeStep
  dsimp only
  split
  · exact inv.pass rfl rfl hreader hdelivered (fun _ _ => rfl) hothers
      (only_busy (.inr rfl)) rfl (fun held => held.2 rfl) (fun _ => inv.current ins hbusy)
  · exact inv.pass rfl rfl hreader hdelivered (fun _ _ => rfl) hothers
      (only_busy (.inr rfl)) rfl (fun held => held.2 rfl) (fun _ => inv.current ins hbusy)

omit [DecidableEq ι] [DecidableEq δ] in
theorem flushLost_frame (source : ι) (s : State ι δ) :
    (flushLost source s).ev = s.ev ∧ (flushLost source s).heap = s.heap := by
  unfold flushLost
  split
  · exact ⟨rfl, rfl⟩
  · exact ⟨reportLost_ev s source s.lost, reportLost_heap s source s.lost⟩

theorem Located.readStep (inv : Located cfg s) (ordered : Ordered cfg s)
    (hphase : s.phase = .read ins needBreak) :
    Located cfg (readStep cfg ins needBreak s) := by
  have hbusy : s.phase.busy = some ins := by rw [hphase]; rfl
  have member := inv.current ins hbusy
  have hfree : ¬ Held s ins := fun held => held.2 hbusy
  have hothers := only_busy (.inr hbusy)
  have hconsume := only_busy (show (Phase.consume ins needBreak).busy = none ∨ _ from .inr rfl)
  have hresume : (if needBreak then Phase.unwind else Phase.loop : Phase ι).busy =
      none ∧ (if needBreak then Phase.unwind else Phase.loop : Phase ι).resting =
      false := by
    cases needBreak <;> exact ⟨rfl, rfl⟩
  obtain ⟨before, after, reader, hdelivered⟩ := (inv.tracked ins).free hfree
  unfold Order.readStep
  cases after with
  | nil =>
    obtain ⟨map, hread, _, hdone⟩ := reader.readEvent_nil
    rw [hread]
    refine inv.works_on ins ⟨?_, ?_, ?_, hothers, ?_, hresume.2⟩
      (Tracked.of_free ⟨before, [], ?_, hdelivered⟩ ?_) ?_
    · exact fun _ different => s.setMap_map_other _ different
    · exact fun _ _ => rfl
    · intro other different
      exact List.mem_erase_of_ne different
    · exact only_busy (.inl hresume.1)
    · exact (s.setMap_map_self ins _).symm ▸ hdone
    · rintro ⟨inside, _⟩
      exact ordered.heap_nodup.not_mem_erase inside
    · intro busy
      exact absurd (hresume.1.symm.trans busy) (fun absurd => nomatch absurd)
  | cons record rest =>
    obtain ⟨map, writable, hread, htail, hnext⟩ := reader.readEvent_cons
    rw [hread]
    cases hpayload : record.payload with
    | sample time =>
      simp only [hpayload]
      obtain ⟨hev, hheap⟩ := flushLost_frame ins (s.setEvent ins
        ((s.ev ins).readAhead map (bytes before) record time writable))
      have hself := (congrFun hev ins).trans (s.setEvent_self ins _)
      refine inv.works_on ins ⟨?_, ?_, ?_, hothers, ?_, hresume.2⟩
        (Tracked.of_ahead ?_ ?_) ?_
      · intro other different
        exact (congrFun hev other).trans (s.setEvent_other _ different)
      · intro other _
        exact deliveries_flushLost other ins _
      · intro other _
        exact iff_of_eq (congrArg (other ∈ ·) hheap)
      · exact only_busy (.inl hresume.1)
      · exact Ahead.intro (congrArg MmapEvent.map hself) hnext (Nat.le_trans (Nat.le_of_eq htail)
          reader.tail) (congrArg MmapEvent.event hself) rfl (by simp [Record.isSample, hpayload])
          ((deliveries_flushLost ins ins _).trans hdelivered)
      · refine ⟨?_, ?_⟩
        · change ins ∈ (flushLost ins _).heap
          rw [hheap]
          exact member
        · change Phase.busy (if needBreak then _ else _) ≠ _
          rw [hresume.1]
          exact fun absurd => nomatch absurd
      · intro busy
        exact absurd (hresume.1.symm.trans busy) (fun absurd => nomatch absurd)
    | lost id count =>
      simp only [hpayload]
      split
      · rename_i taken
        exact inv.pass rfl rfl hnext (hdelivered.trans (deliverable_snoc_lost (by simp
            [takesLost, hpayload, taken])).symm) (fun _ _ => rfl) hothers hconsume rfl (fun held =>
            held.2 rfl) (fun _ => member)
      · rename_i handed
        refine inv.pass rfl rfl hnext ?_ (fun _ different => deliveries_other different _ _
          _ _) hothers hconsume rfl (fun held => held.2 rfl) (fun _ => member)
        rw [deliverable_snoc (by simpa [takesLost, hpayload] using handed), ← hdelivered]
        exact deliveries_self ins _ _ _ _
    | other =>
      simp only [hpayload]
      refine inv.pass rfl rfl hnext ?_ (fun _ different => deliveries_other different _ _ _
        _) hothers hconsume rfl (fun held => held.2 rfl) (fun _ => member)
      rw [deliverable_snoc (by simp [takesLost, hpayload]), ← hdelivered]
      exact deliveries_self ins _ _ _ _

omit [DecidableEq δ] in
theorem Located.unwindStep (inv : Located cfg s) (ordered : Ordered cfg s)
    (hphase : s.phase = .unwind) : Located cfg (unwindStep s) := by
  have hbusy : s.phase.busy = none := by rw [hphase]; rfl
  cases hheap : s.heap with
  | nil =>
    simp only [Order.unwindStep, hheap]
    exact inv.same_sources (fun _ => rfl) (fun _ => rfl) rfl rfl
      hbusy.symm (fun _ => hheap)
  | cons ins rest =>
    have hheld : Held s ins := ⟨by simp [hheap], by simp [hbusy]⟩
    obtain ⟨before, record, after, event, reader, htail, hevent, hsame, _,
      hdelivered⟩ := (inv.tracked ins).ahead hheld
    have hnodup := ordered.heap_nodup
    rw [hheap, List.nodup_cons] at hnodup
    simp only [Order.unwindStep, hheap, hevent]
    refine inv.works_on ins ⟨?_, ?_, ?_, ?_, ?_, ?_⟩
      (Tracked.of_free ⟨before, record :: after, ?_, hdelivered⟩ ?_) ?_
    · exact fun _ different => s.setMap_map_other _ different
    · exact fun _ _ => rfl
    · intro other different
      rw [hheap]
      simp [different]
    · simp [hbusy]
    · exact only_busy (.inl hbusy)
    · change s.phase.resting = false
      rw [hphase]
      rfl
    · refine (s.setMap_map_self ins _).symm ▸ Reader.consume ?_
      exact reader.unreadEvent htail (Record.size_eq_of_untimed_eq hsame)
    · exact fun held => hnodup.1 held.1
    · intro busy
      exact absurd (hbusy.symm.trans busy) (fun absurd => nomatch absurd)

omit [DecidableEq δ] in
theorem Delivered.plain (inv : Delivered cfg s) (ins : ι) :
    (s.ev ins).map.overwrite = false := by
  obtain ⟨before, after, reader⟩ := (inv.tracked ins).reader
  exact reader.plain

theorem step_located (inv : Delivered cfg s)
    (hstep : step cfg action s = some next) : Located cfg next := by
  have ordered := inv.ordered
  have located := inv.located
  cases step_stepped hstep with
  | arrive appended => exact located.arrive appended
  | scribble old => cases (inv.plain _).symm.trans old
  | call target targetTm hphase => exact located.orderProcess hphase target targetTm
  | target hphase => exact located.targetStep hphase
  | filled hphase =>
    exact located.same_sources (fun _ => rfl) (fun _ => rfl) rfl rfl
      (by rw [hphase]; rfl) (by simp [State.goto, Phase.resting])
  | init hphase => exact located.mmapEventInit ordered hphase
  | retry hphase => exact located.mmapEventRetry ordered hphase
  | empty hphase =>
    exact located.same_sources (fun _ => rfl) (fun _ => rfl) rfl rfl
      (by rw [hphase]; rfl) (by simp [State.stop, Phase.resting])
  | top hphase member least htop => exact located.processTop hphase member htop
  | consume hphase => exact located.consumeStep hphase
  | read hphase => exact located.readStep ordered hphase
  | unwind hphase => exact located.unwindStep ordered hphase

theorem step_delivered (inv : Delivered cfg s)
    (hstep : step cfg action s = some next) : Delivered cfg next :=
  have located := step_located inv hstep
  ⟨step_ordered inv.ordered hstep, located.tracked, located.current, located.resting⟩

omit [DecidableEq δ] in
theorem State.init_delivered (cfg : Config ι δ) (mask flush shared : ι → Nat) :
    Delivered cfg (State.init fun ins =>
      Mmap.mapped false (mask ins) (flush ins) (shared ins)) where
  ordered := State.init_ordered cfg _
  tracked := by
    intro ins
    refine Tracked.of_free ⟨[], [], ?_, rfl⟩ ?_
    · exact ⟨rfl, by simp [State.init, Mmap.mapped], rfl, rfl, rfl,
        Nat.le_refl _, by simp [State.init, Mmap.mapped]⟩
    · rintro ⟨member, _⟩
      cases member
  current := by
    intro ins busy
    cases busy
  resting := fun _ => rfl

end Invariant

end PerfProf.Order
