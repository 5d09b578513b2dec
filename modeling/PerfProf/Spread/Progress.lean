import Mathlib.Logic.Function.Iterate
import PerfProf.Spread.Receive

namespace PerfProf.Spread

open PerfProf.Data

namespace Reader

structure Fits (reader : Reader) : Prop where
  position : reader.pos + reader.size = reader.received
  inside : reader.received ≤ bufLen
  room : bufLen ≤ reader.buf.length

variable {receiver : Receiver} {reader : Reader} {minimum len : Nat}

private theorem Fits.init {buf : Bytes} (room : bufLen ≤ buf.length)
    (source : Source) : Fits (init buf source) :=
  ⟨rfl, Nat.zero_le _, room⟩

theorem complete_iff : reader.complete minimum = true ↔
    minimum ≤ reader.size ∧ headerSize reader.event ≤ reader.size := by
  rw [complete, Bool.and_eq_true, decide_eq_true_iff, decide_eq_true_iff]

theorem skip_event (len : Nat) (reader : Reader) :
    (reader.skip len).event = reader.event.drop len :=
  List.drop_drop.symm

namespace Fits

variable (fits : Fits reader)

include fits

private theorem size_le : reader.size ≤ reader.event.length := by
  obtain ⟨position, inside, room⟩ := fits
  rw [event, List.length_drop]
  omega

theorem pending_length : reader.pending.length = reader.size := by
  rw [pending, List.length_take, Nat.min_eq_left fits.size_le]

theorem moved : Fits reader.moved := by
  have hpending := fits.pending_length
  obtain ⟨position, inside, room⟩ := fits
  refine ⟨Nat.zero_add _, ?_, ?_⟩
  · change reader.size ≤ bufLen
    omega
  · change bufLen ≤ (overwrite reader.buf 0 reader.pending).length
    rw [length_overwrite (by omega)]
    exact room

theorem moved_pending : reader.moved.pending = reader.pending := by
  have hmoved := @take_overwrite reader.buf reader.pending 0 (Nat.zero_le _)
  rwa [Nat.zero_add, fits.pending_length, List.take_zero, List.nil_append] at hmoved

section

variable (front : reader.pos = 0) {chunk : Bytes} (source : Source)

include front

private theorem add (small : chunk.length ≤ bufLen - reader.size) :
    Fits (reader.add chunk source) := by
  obtain ⟨position, inside, room⟩ := fits
  refine ⟨?_, ?_, ?_⟩
  · change reader.pos + (reader.size + chunk.length) = reader.size + chunk.length
    omega
  · change reader.size + chunk.length ≤ bufLen
    omega
  · change bufLen ≤ (overwrite reader.buf reader.size chunk).length
    rw [length_overwrite (by omega)]
    exact room

theorem add_pending :
    (reader.add chunk source).pending = reader.pending ++ chunk := by
  have hsize := fits.size_le
  rw [event, front, List.drop_zero] at hsize
  unfold pending event Reader.add
  dsimp only
  rw [front, List.drop_zero, List.drop_zero]
  exact take_overwrite hsize

end

private theorem skip (inside : len ≤ reader.size) : Fits (reader.skip len) := by
  have hposition := fits.position
  refine ⟨?_, fits.inside, fits.room⟩
  change reader.pos + len + (reader.size - len) = reader.received
  omega

private theorem setEvent_event (event : Bytes) :
    (reader.setEvent event).event = event := by
  obtain ⟨position, inside, room⟩ := fits
  change (reader.buf.take reader.pos ++ event).drop reader.pos = event
  apply List.drop_left'
  rw [List.length_take]
  omega

private theorem processed : Fits (reader.processed receiver) := by
  obtain ⟨position, inside, room⟩ := fits
  refine ⟨position, inside, ?_⟩
  change bufLen ≤ (reader.buf.take reader.pos ++
    (blockProcessEvent receiver reader.event reader.block).1).length
  rw [List.length_append, blockProcessEvent_length, event, List.length_take,
    List.length_drop]
  omega

theorem processed_event : (reader.processed receiver).event =
    (blockProcessEvent receiver reader.event reader.block).1 :=
  fits.setEvent_event _

theorem processed_headerSize :
    headerSize (reader.processed receiver).event = headerSize reader.event := by
  rw [fits.processed_event, blockProcessEvent_headerSize]

theorem processed_complete :
    (reader.processed receiver).complete minimum = reader.complete minimum := by
  unfold complete
  rw [fits.processed_headerSize]
  rfl

end Fits

end Reader

namespace Scan

variable {link : Link} {receiver : Receiver} {scan next : Scan}

structure Valid (scan : Scan) : Prop extends Reader.Fits scan.toReader where
  front : scan.reading = true → scan.pos = 0
  alive : scan.block.freed = false

theorem Valid.init {buf : Bytes} (room : bufLen ≤ buf.length)
    (source : Source) : (init buf source).Valid :=
  ⟨.init room source, fun _ => rfl, rfl⟩

theorem Valid.body (valid : Valid scan)
    (hbody : scan.body link receiver = .inl next) : Valid next := by
  obtain ⟨fits, front, alive⟩ := valid
  have hround := body_round link receiver scan
  rw [hbody] at hround
  cases hround with
  | read chunk source reading got some =>
    exact ⟨fits.add (front reading) source (Source.read_some got).2,
      fun absurd => (nomatch absurd), alive⟩
  | processed scanning whole freed =>
    exact ⟨fits.processed.skip (Reader.complete_iff.mp whole).2,
      fun absurd => (nomatch absurd), freed⟩
  | moved scanning short => exact ⟨fits.moved, fun _ => rfl, alive⟩

/-- A record of size zero is to be processed, again and again. -/
structure Spins (link : Link) (receiver : Receiver) (scan : Scan) : Prop where
  scanning : scan.reading = false
  enough : link.minimum ≤ scan.size
  zero : headerSize scan.event = 0
  taken : receiver.refuses scan.event = false

theorem Spins.whole (spins : Spins link receiver scan) :
    scan.complete link.minimum = true := by
  rw [Reader.complete_iff, spins.zero]
  exact ⟨spins.enough, Nat.zero_le _⟩

private theorem Spins.body (spins : Spins link receiver scan)
    (valid : Valid scan) :
    ∃ next, scan.body link receiver = .inl next ∧ Spins link receiver next := by
  have hround := body_round link receiver scan
  have hfreed := blockProcessEvent_freed receiver scan.event scan.block valid.alive
  rw [spins.taken] at hfreed
  generalize scan.body link receiver = result at hround
  cases hround with
  | idle reading _ => cases spins.scanning.symm.trans reading
  | ended source reading _ => cases spins.scanning.symm.trans reading
  | read chunk source reading _ _ => cases spins.scanning.symm.trans reading
  | refused scanning whole freed => cases hfreed.symm.trans freed
  | moved scanning short => cases spins.whole.symm.trans short
  | processed scanning whole alive =>
    rw [spins.zero]
    refine ⟨_, rfl, rfl, spins.enough, ?_, ?_⟩
    · rw [Reader.skip_event, List.drop_zero,
        valid.toFits.processed_headerSize, spins.zero]
    · rw [Reader.skip_event, List.drop_zero, valid.toFits.processed_event]
      exact blockProcessEvent_refuses receiver scan.event scan.block spins.taken

def measure (scan : Scan) : Nat :=
  scan.size + 3 * scan.source.wire.length + if scan.reading then 0 else 1

theorem measure_lt_rounds (scan : Scan) : scan.measure < scan.rounds := by
  unfold measure rounds
  split <;> omega

theorem measure_body (hbody : scan.body link receiver = .inl next)
    (valid : Valid scan) (moves : ¬ Spins link receiver scan) :
    next.measure < scan.measure := by
  have hround := body_round link receiver scan
  rw [hbody] at hround
  cases hround with
  | read chunk source reading got some =>
    have hlength := congrArg List.length (Source.read_some got).1
    have hchunk := List.length_pos_iff.mpr some
    rw [List.length_append] at hlength
    simp only [measure, reading, Reader.add, if_true, Bool.false_eq_true, if_false]
    omega
  | processed scanning whole alive =>
    obtain ⟨henough, hinside⟩ := Reader.complete_iff.mp whole
    have hfreed := blockProcessEvent_freed receiver scan.event scan.block valid.alive
    have hsize : headerSize scan.event ≠ 0 := fun zero =>
      moves ⟨scanning, henough, zero, hfreed.symm.trans alive⟩
    simp only [measure, scanning, Bool.false_eq_true, if_false]
    change scan.size - headerSize scan.event + 3 * scan.source.wire.length + 1 < _
    omega
  | moved scanning short =>
    simp only [measure, scanning, Reader.moved, if_true, Bool.false_eq_true, if_false]
    omega

private theorem Valid.reached {head : Scan} (valid : Valid scan)
    (reached : Reaches (Scan.body link receiver) scan head) : Valid head :=
  reached.preserves Valid (fun _ _ valid hbody => valid.body hbody) valid

private theorem halts_iff (valid : Valid scan) :
    Halts (Scan.body link receiver) scan ↔
      ∀ head, Reaches (Scan.body link receiver) scan head →
        ¬ Spins link receiver head := by
  constructor
  · intro halts head reached spins
    refine not_halts_of_invariant
      (fun state => Valid state ∧ Spins link receiver state) ?_
      ⟨valid.reached reached, spins⟩ (reached.halts.mp halts)
    intro state ⟨hstate, hspins⟩
    obtain ⟨next, hbody, hnext⟩ := hspins.body hstate
    exact ⟨next, hbody, hstate.body hbody, hnext⟩
  · intro moves
    obtain ⟨result, hresult⟩ := iterate_of_decreasing measure
      (fun middle next reached hbody =>
        measure_body hbody (valid.reached reached) (moves middle reached))
      (Nat.lt_succ_self scan.measure)
    exact ⟨_, result, hresult⟩

end Scan

/-- A record that is passed over, however often it is looked at and converted.
-/
def Receiver.PassesOver (receiver : Receiver) (id : Nat) (event : Bytes) :
    Prop :=
  if headerType event = perfRecordTp then receiver.accepts event = true
  else receiver.enabled = false ∨
    headerType event = perfRecordSample ∧
      ∀ times, (receiver.convert id
        ((fun event => (receiver.convert id event).1)^[times] event)).2 = none

private theorem Receiver.passesOver_iff {receiver : Receiver} {id : Nat}
    {event : Bytes} :
    receiver.PassesOver id event ↔
      match receiver.fate id event with
      | .accepted id => receiver.PassesOver id event
      | .passed next => receiver.PassesOver id next
      | _ => False := by
  unfold Receiver.PassesOver Receiver.fate
  split_ifs with htp haccepts henabled hsample
  · simp [haccepts]
  · simp [haccepts]
  · have hheader := headerType_congr (receiver.convert_header id event)
    rcases hconvert : receiver.convert id event with ⟨next, _ | ins⟩
    · rw [hconvert] at hheader
      simp only [henabled, hsample, hheader, true_and, Bool.true_eq_false, false_or]
      rw [if_neg (by decide)]
      constructor
      · intro never times
        have hlater := never (times + 1)
        rwa [Function.iterate_succ_apply, hconvert] at hlater
      · intro never times
        cases times with
        | zero => exact congrArg Prod.snd hconvert
        | succ times =>
          rw [Function.iterate_succ_apply, hconvert]
          exact never times
    · simp only [henabled, Bool.true_eq_false, false_or, iff_false]
      intro never
      have hnone := never.2 0
      rw [Function.iterate_zero, id_eq, hconvert] at hnone
      cases hnone
  · simp [henabled, hsample]
  · simp [henabled, htp]

namespace Reader

structure Valid (reader : Reader) : Prop extends Fits reader where
  alive : reader.block.freed = false

theorem Valid.init {buf : Bytes} (room : bufLen ≤ buf.length)
    (source : Source) : (init buf source).Valid :=
  ⟨.init room source, rfl⟩

variable {link : Link} {receiver : Receiver} {init : Bool}
  {reader next : Reader}

private theorem ready_iff : reader.ready = true ↔
    headerLen < reader.size ∧ headerSize reader.event ≤ reader.size :=
  complete_iff

def total (reader : Reader) : Nat := reader.size + reader.source.wire.length

theorem Fits.consume (fits : Fits reader) : Fits reader.consume := by
  unfold Reader.consume
  split_ifs with whole
  · exact fits.skip (ready_iff.mp whole).2
  · exact fits

theorem consume_kept (reader : Reader) :
    reader.consume.source = reader.source ∧
      reader.consume.block = reader.block := by
  unfold consume
  split <;> exact ⟨rfl, rfl⟩

/-- There is room for a read. -/
theorem size_lt (short : reader.ready = false) : reader.size < bufLen := by
  have hbelow := headerSize_lt reader.event
  have hwhole := mt ready_iff.mpr (Bool.not_eq_true _ ▸ short)
  have hheader : headerLen < bufLen := by decide
  omega

theorem Fits.fill (fits : Fits reader) : Fits (reader.fill link init) := by
  have hgot := (reader.source.read_spec (bufLen - reader.size)).2
  unfold Reader.fill
  split
  · obtain ⟨position, inside, room⟩ := fits.moved.add rfl
      (reader.source.read (bufLen - reader.size)).2 hgot
    exact ⟨position, inside, room⟩
  · exact fits

private theorem consume_total (whole : reader.ready = true) :
    reader.consume.total + headerSize reader.event = reader.total := by
  obtain ⟨_, hinside⟩ := ready_iff.mp whole
  unfold consume total skip
  rw [if_pos whole]
  dsimp only
  omega

theorem consume_total_le (reader : Reader) :
    reader.consume.total ≤ reader.total := by
  cases hwhole : reader.ready with
  | true =>
    have htotal := consume_total hwhole
    omega
  | false =>
    unfold consume
    rw [hwhole]
    exact Nat.le_refl _

private theorem fill_total (link : Link) (init : Bool) (reader : Reader) :
    (reader.fill link init).total = reader.total := by
  unfold fill
  split
  · have hwire := (reader.source.read_spec (bufLen - reader.size)).1
    have hlength := congrArg List.length hwire
    rw [List.length_append] at hlength
    unfold total add moved
    dsimp only
    omega
  · rfl

/-- The peer has shut the connection down, and everything was read. -/
structure HangsUp (link : Link) (init : Bool) (reader : Reader) : Prop where
  tcp : link = .tcp
  asked : init = true
  short : reader.consume.ready = false
  wire : reader.source.wire = []
  shut : reader.source.shut = true

theorem fill_freed (alive : reader.block.freed = false) :
    (reader.consume.fill link init).block.freed = true ↔
      HangsUp link init reader := by
  obtain ⟨hsource, hblock⟩ := consume_kept reader
  have hfree : (reader.block.hangUp link).freed = true ↔ link = .tcp := by
    cases link <;> simp [Block.hangUp, alive]
  unfold fill
  split
  · rename_i hasked
    simp only [Bool.and_eq_true, Bool.not_eq_true'] at hasked
    have hroom := size_lt hasked.2
    have hended := @Source.read_nil_iff (bufLen - reader.consume.size)
      reader.source (by omega)
    dsimp only
    rw [hblock, hsource]
    split
    · rename_i hgot
      rw [hended] at hgot
      rw [hfree]
      exact ⟨fun htcp => ⟨htcp, hasked.1, hasked.2, hgot.1, hgot.2⟩,
        HangsUp.tcp⟩
    · rename_i hgot
      rw [hended] at hgot
      rw [alive]
      exact ⟨fun absurd => (nomatch absurd), fun hangs =>
        absurd ⟨hangs.wire, hangs.shut⟩ hgot⟩
  · rename_i hasked
    rw [hblock, alive]
    refine ⟨fun absurd => (nomatch absurd), fun hangs => absurd ?_ hasked⟩
    rw [hangs.asked, hangs.short]
    rfl

private theorem setEvent_self (reader : Reader) :
    reader.setEvent reader.event = reader := by
  unfold setEvent event
  rw [List.take_append_drop]

private theorem readEvent_fate (alive : reader.block.freed = false) :
    reader.readEvent receiver =
      match receiver.fate reader.block.remoteId reader.event with
      | .accepted id =>
        .inl { reader with block := { reader.block with remoteId := id } }
      | .refused =>
        .inr ({ reader with block := { reader.block with freed := true } }, .nothing)
      | .passed event => .inl (reader.setEvent event)
      | .handed ins event => .inr ((reader.setEvent event).hand ins, .event) := by
  have hself := setEvent_self reader
  rw [readEvent, Reader.processed, blockProcessEvent_fate, Receiver.fate]
  split_ifs with htp
  · simp [Fate.bytes, Fate.apply, hself, alive]
  · simp [Fate.bytes, Fate.apply, hself]
  · rcases receiver.convert reader.block.remoteId reader.event with
      ⟨event, _ | ins⟩ <;> rfl
  · dsimp only
    rw [hself]
  · dsimp only
    rw [hself]

private theorem readEvent_processed (fits : Fits reader)
    (alive : reader.block.freed = false) :
    (reader.processed receiver).block.freed = false ∧
      (reader.readEvent receiver = .inl (reader.processed receiver) ∨
        reader.readEvent receiver = .inr (reader.processed receiver, .event)) ∨
    (reader.processed receiver).block.freed = true ∧
      reader.readEvent receiver =
        .inr (reader.processed receiver, .nothing) := by
  have hself := setEvent_self reader
  rw [readEvent_fate alive, Reader.processed, blockProcessEvent_fate]
  cases receiver.fate reader.block.remoteId reader.event with
  | accepted id =>
    dsimp only [Fate.bytes, Fate.apply]
    rw [hself]
    exact .inl ⟨alive, .inl rfl⟩
  | refused =>
    dsimp only [Fate.bytes, Fate.apply]
    rw [hself]
    exact .inr ⟨rfl, rfl⟩
  | passed event => exact .inl ⟨alive, .inl rfl⟩
  | handed ins event =>
    refine .inl ⟨alive, .inr ?_⟩
    dsimp only [hand]
    rw [fits.setEvent_event]
    rfl

private theorem body_eq (link : Link) (receiver : Receiver) (init : Bool)
    (reader : Reader) :
    reader.body link receiver init =
      if (reader.consume.fill link init).block.freed then
        .inr (reader.consume.fill link init, .afterFree)
      else if (reader.consume.fill link init).ready then
        (reader.consume.fill link init).readEvent receiver
      else .inr (reader.consume.fill link init, .nothing) :=
  rfl

/-- What one round does with what it has after the read. -/
theorem body_cases (valid : Valid reader) {middle : Reader}
    (hmiddle : reader.consume.fill link init = middle) :
    middle.block.freed = true ∧
      reader.body link receiver init = .inr (middle, .afterFree) ∨
    middle.Valid ∧ middle.ready = false ∧
      reader.body link receiver init = .inr (middle, .nothing) ∨
    middle.Valid ∧ middle.ready = true ∧
      ((middle.processed receiver).Valid ∧
        (reader.body link receiver init = .inl (middle.processed receiver) ∨
          reader.body link receiver init =
            .inr (middle.processed receiver, .event)) ∨
      (middle.processed receiver).block.freed = true ∧
        reader.body link receiver init =
          .inr (middle.processed receiver, .nothing)) := by
  have hfits : Fits middle := hmiddle ▸ valid.toFits.consume.fill
  rw [body_eq, hmiddle]
  cases hfreed : middle.block.freed with
  | true => exact .inl ⟨rfl, rfl⟩
  | false =>
    cases hwhole : middle.ready with
    | false => exact .inr (.inl ⟨⟨hfits, hfreed⟩, rfl, rfl⟩)
    | true =>
      refine .inr (.inr ⟨⟨hfits, hfreed⟩, rfl, ?_⟩)
      rw [if_neg Bool.false_ne_true, if_pos rfl]
      exact (readEvent_processed hfits hfreed).imp_left
        fun ⟨alive, hread⟩ => ⟨⟨hfits.processed, alive⟩, hread⟩

theorem body_inl (valid : Valid reader)
    (hbody : reader.body link receiver init = .inl next) :
    (reader.consume.fill link init).Valid ∧
      (reader.consume.fill link init).ready = true ∧
      next = (reader.consume.fill link init).processed receiver ∧
      Valid next := by
  rcases body_cases valid rfl with
    ⟨-, hend⟩ | ⟨-, -, hend⟩ | ⟨hvalid, hwhole, ⟨hnext, hon | hend⟩ | ⟨-, hend⟩⟩
  · cases hend.symm.trans hbody
  · cases hend.symm.trans hbody
  · cases hon.symm.trans hbody
    exact ⟨hvalid, hwhole, rfl, hnext⟩
  · cases hend.symm.trans hbody
  · cases hend.symm.trans hbody

private theorem Valid.reached {head : Reader} (valid : Valid reader)
    (reached : Reaches (body link receiver init) reader head) : Valid head :=
  reached.preserves Valid
    (fun _ _ valid hbody => (body_inl valid hbody).2.2.2) valid

/-- A record of size zero is in front. -/
structure Stuck (reader : Reader) : Prop extends Valid reader where
  enough : headerLen < reader.size
  zero : headerSize reader.event = 0

namespace Stuck

variable (stuck : Stuck reader)

include stuck

private theorem whole : reader.ready = true := by
  rw [ready_iff, stuck.zero]
  exact ⟨stuck.enough, Nat.zero_le _⟩

private theorem stays : reader.consume.fill link init = reader := by
  have hconsume : reader.consume = reader := by
    unfold consume
    rw [if_pos stuck.whole, stuck.zero]
    rfl
  rw [hconsume, fill, stuck.whole, Bool.not_true, Bool.and_false]
  rfl

private theorem body :
    reader.body link receiver init = reader.readEvent receiver := by
  rw [body_eq, stuck.stays, stuck.alive, stuck.whole]
  rfl

/-- The record stays in front when it is passed over. -/
theorem kept (hread : reader.readEvent receiver = .inl next) : Stuck next := by
  have hnext := @body_inl .tcp receiver true reader next stuck.toValid
    (stuck.body.trans hread)
  rw [stuck.stays] at hnext
  obtain ⟨-, -, rfl, valid⟩ := hnext
  exact ⟨valid, stuck.enough, by
    rw [stuck.toFits.processed_headerSize, stuck.zero]⟩

private theorem passed_again
    (passed : receiver.PassesOver reader.block.remoteId reader.event) :
    ∃ next, reader.readEvent receiver = .inl next ∧
      receiver.PassesOver next.block.remoteId next.event := by
  rw [readEvent_fate stuck.alive]
  rw [Receiver.passesOver_iff] at passed
  generalize receiver.fate reader.block.remoteId reader.event = fate at passed ⊢
  cases fate with
  | accepted id => exact ⟨_, rfl, passed⟩
  | refused => exact passed.elim
  | passed event =>
    refine ⟨_, rfl, ?_⟩
    rw [stuck.toFits.setEvent_event]
    exact passed
  | handed ins event => exact passed.elim

private theorem not_halts
    (passed : receiver.PassesOver reader.block.remoteId reader.event) :
    ¬ Halts (Reader.body link receiver init) reader := by
  refine not_halts_of_invariant (fun reader => Stuck reader ∧
    receiver.PassesOver reader.block.remoteId reader.event) ?_ ⟨stuck, passed⟩
  intro state ⟨hstuck, hpassed⟩
  obtain ⟨next, hread, hagain⟩ := hstuck.passed_again hpassed
  exact ⟨next, hstuck.body.trans hread, hstuck.kept hread, hagain⟩

private theorem halts_inr (hread : reader.readEvent receiver = .inr result) :
    Halts (Reader.body link receiver init) reader :=
  ⟨1, result, iterate_inr (stuck.body.trans hread) 0⟩

end Stuck

/-- A sample of size zero is converted again until it gets an instance. -/
theorem Stuck.never_placed {reader : Reader} (stuck : Stuck reader)
    (sample : headerType reader.event = perfRecordSample)
    (enabled : receiver.enabled = true)
    (forever : ¬ Halts (Reader.body link receiver init) reader) (times : Nat) :
    (receiver.convert reader.block.remoteId
      ((fun event => (receiver.convert reader.block.remoteId event).1)^[times]
        reader.event)).2 = none := by
  have hsample : headerType reader.event ≠ perfRecordTp := sample ▸ by decide
  have hread := @readEvent_fate receiver reader stuck.alive
  have hheader := receiver.convert_header reader.block.remoteId reader.event
  rw [Receiver.fate, if_neg hsample, if_pos enabled, if_pos sample] at hread
  rcases hconvert : receiver.convert reader.block.remoteId reader.event with
    ⟨event, _ | ins⟩
  · rw [hconvert] at hread hheader
    have hevent := stuck.toFits.setEvent_event event
    cases times with
    | zero => exact congrArg Prod.snd hconvert
    | succ times =>
      rw [halts_inl (stuck.body.trans hread)] at forever
      have hlater := (stuck.kept hread).never_placed
        (by rw [hevent]; exact (headerType_congr hheader).trans sample) enabled
        forever times
      rw [hevent] at hlater
      rw [Function.iterate_succ_apply, hconvert]
      exact hlater
  · rw [hconvert] at hread
    exact absurd (stuck.halts_inr hread) forever
termination_by times

private theorem Stuck.halts_iff (stuck : Stuck reader) :
    Halts (Reader.body link receiver init) reader ↔
      ¬ receiver.PassesOver reader.block.remoteId reader.event := by
  refine ⟨fun halts passed => stuck.not_halts passed halts, fun given => ?_⟩
  by_contra forever
  have hread := @readEvent_fate receiver reader stuck.alive
  apply given
  rw [Receiver.PassesOver]
  rw [Receiver.fate] at hread
  split_ifs at hread ⊢ with htp haccepts henabled hsample
  · exact haccepts
  · exact absurd (stuck.halts_inr hread) forever
  · exact .inr ⟨hsample, stuck.never_placed hsample henabled forever⟩
  · exact absurd (stuck.halts_inr hread) forever
  · exact .inl (eq_false_of_ne_true henabled)

/-- The record that is to be read next has size zero and is passed over. -/
structure Spins (link : Link) (receiver : Receiver) (init : Bool)
    (reader : Reader) : Prop where
  alive : (reader.consume.fill link init).block.freed = false
  enough : headerLen < (reader.consume.fill link init).size
  zero : headerSize (reader.consume.fill link init).event = 0
  passed : receiver.PassesOver (reader.consume.fill link init).block.remoteId
    (reader.consume.fill link init).event

private theorem halts_stuck
    (stuck : Stuck (reader.consume.fill link init)) :
    Halts (body link receiver init) reader ↔
      Halts (body link receiver init) (reader.consume.fill link init) := by
  have hsame : reader.body link receiver init =
      (reader.consume.fill link init).body link receiver init := by
    rw [body_eq, body_eq, stuck.stays]
  exact halts_congr hsame

private theorem Spins.not_halts (spins : Spins link receiver init reader)
    (valid : Valid reader) : ¬ Halts (body link receiver init) reader := by
  have hstuck : Stuck (reader.consume.fill link init) :=
    ⟨⟨valid.toFits.consume.fill, spins.alive⟩, spins.enough, spins.zero⟩
  rw [halts_stuck hstuck, hstuck.halts_iff]
  exact fun given => given spins.passed

/-- A round that goes on past a record leaves less to read. -/
theorem consume_total_body (valid : Valid reader)
    (hbody : reader.body link receiver init = .inl next) :
    next.consume.total +
        headerSize (reader.consume.fill link init).event =
      reader.consume.total := by
  obtain ⟨⟨hfits, -⟩, hwhole, rfl, -⟩ := body_inl valid hbody
  have hconsume := consume_total
    ((@Fits.processed_complete receiver _ _ hfits).trans hwhole)
  rw [hfits.processed_headerSize] at hconsume
  rw [← fill_total link init reader.consume]
  exact hconsume

/-- The round in which a call ends. -/
theorem body_inr {last : Reader × ReadEnd} (valid : Valid reader)
    (hbody : reader.body link receiver init = .inr last) :
    last.2 = .afterFree ↔ HangsUp link init reader := by
  rw [← fill_freed valid.alive]
  rcases @body_cases link receiver init reader valid _ rfl with
    ⟨hfreed, hend⟩ | ⟨hvalid, -, hend⟩ |
    ⟨hvalid, -, ⟨-, hon | hend⟩ | ⟨-, hend⟩⟩
  · cases hend.symm.trans hbody
    exact ⟨fun _ => hfreed, fun _ => rfl⟩
  · cases hend.symm.trans hbody
    simp [hvalid.alive]
  · cases hon.symm.trans hbody
  · cases hend.symm.trans hbody
    simp [hvalid.alive]
  · cases hend.symm.trans hbody
    simp [hvalid.alive]

end Reader

namespace FileRead

variable {file next : FileRead}

private theorem fread_length (count : Nat) (file : FileRead) :
    (file.fread count).length = min count (file.content.length - file.pos) := by
  rw [fread, List.length_take, List.length_drop]

private theorem payload_length
    (whole : (file.fread headerLen).length = headerLen) :
    file.payload.length =
      min (remaining (headerSize (file.fread headerLen)))
        (file.content.length - (file.pos + headerLen)) := by
  have hcopy : headerSize (file.store 0 (file.fread headerLen)).copy =
      headerSize (file.fread headerLen) := by
    unfold store
    dsimp only
    rw [overwrite, List.take_zero, List.nil_append]
    exact headerSize_append whole.ge _
  rw [payload, if_pos whole, fread_length, hcopy]
  unfold store
  rw [whole]

private theorem load_inside (inside : file.pos ≤ file.content.length) :
    file.load.pos ≤ file.load.content.length := by
  have hheader := fread_length headerLen file
  have hpayload : file.pos + (file.fread headerLen).length +
      file.payload.length ≤ file.content.length := by
    by_cases whole : (file.fread headerLen).length = headerLen
    · have hpayload := payload_length whole
      omega
    · rw [payload, if_neg whole, List.length_nil]
      omega
  exact hpayload

end FileRead

def plainReceiver (enabled : Bool) : Receiver where
  sys := []
  name := []
  attr := none
  eventSize := 0
  enabled := enabled
  convert _ event := (event, some 0)
  convert_length _ _ := rfl
  convert_header _ _ := rfl

/-- A buffer before anything was received. -/
def fresh : Bytes := List.replicate bufLen 0

theorem fresh_room : bufLen ≤ fresh.length := List.length_replicate.ge

section Zeros

variable {buf : Bytes} (room : bufLen ≤ buf.length)

include room

end Zeros

end PerfProf.Spread
