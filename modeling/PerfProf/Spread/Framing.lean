import PerfProf.Spread.Progress

namespace PerfProf.Spread

open PerfProf.Data

/-- A record with its own size in the header and more than a header. -/
structure WellFormed (record : Bytes) : Prop where
  size : headerSize record = record.length
  least : headerLen < record.length

/-- What is read and written of the record lies in it: a `PERF_RECORD_TP` is a
whole `perf_record_tp` whose strings end inside it, and so do the fields of a
sample. -/
structure Contained (receiver : Receiver) (record : Bytes) : Prop
    extends WellFormed record where
  names : headerType record = perfRecordTp →
    40 ≤ record.length ∧
      0 ∈ record.drop (field record 12 2) ∧ 0 ∈ record.drop (field record 14 2)
  fields : headerType record = perfRecordSample → ∀ id rest,
    receiver.convert id (record ++ rest) =
      ((receiver.convert id record).1 ++ rest, (receiver.convert id record).2)

private theorem Receiver.accepts_append (receiver : Receiver)
    (whole : 40 ≤ record.length)
    (sys : 0 ∈ record.drop (field record 12 2))
    (name : 0 ∈ record.drop (field record 14 2)) (rest : Bytes) :
    receiver.accepts (record ++ rest) = receiver.accepts record := by
  have hfield : ∀ offset width, offset + width ≤ 40 →
      field (record ++ rest) offset width = field record offset width :=
    fun offset width inside => field_append (inside.trans whole) rest
  unfold Receiver.accepts
  rw [hfield 12 2 (by decide), hfield 14 2 (by decide), hfield 16 8 (by decide),
    hfield 24 8 (by decide), hfield 32 4 (by decide), stringAt_append sys,
    stringAt_append name]

private theorem WellFormed.recordOf_append (wellFormed : WellFormed record)
    (rest : Bytes) : recordOf (record ++ rest) = record := by
  rw [recordOf, headerSize_append wellFormed.least.le, wellFormed.size]
  exact List.take_left

/-- What a block has still to hand on. -/
def Block.rest (receiver : Receiver) (block : Block) (todo : List Bytes) :
    List Handed :=
  if block.freed then [] else handedOn receiver block.remoteId todo

private theorem Block.rest_alive {block : Block} (alive : block.freed = false)
    (todo : List Bytes) :
    block.rest receiver todo = handedOn receiver block.remoteId todo :=
  if_neg (Bool.not_eq_true _ ▸ alive)

private theorem Block.rest_nil (receiver : Receiver) (block : Block) :
    block.rest receiver [] = [] := by
  unfold Block.rest handedOn
  split <;> rfl

private theorem Block.hand_rest {block : Block} (alive : block.freed = false)
    (ins : Nat) (record : Bytes) (todo : List Bytes) :
    (block.hand ins record).handed ++
      (block.hand ins record).rest receiver todo =
      block.handed ++ ⟨ins, record⟩ ::
        handedOn receiver block.remoteId todo := by
  have halive : (block.hand ins record).freed = false := alive
  rw [Block.rest_alive halive]
  exact List.append_assoc _ _ _

def Fate.append (rest : Bytes) : Fate → Fate
  | .passed event => .passed (event ++ rest)
  | .handed ins event => .handed ins (event ++ rest)
  | fate => fate

private theorem Contained.fate_append (contained : Contained receiver record)
    (id : Nat) (rest : Bytes) :
    receiver.fate id (record ++ rest) =
      (receiver.fate id record).append rest := by
  obtain ⟨⟨_, least⟩, names, fields⟩ := contained
  rw [Receiver.fate, Receiver.fate, headerType_append least.le]
  by_cases htp : headerType record = perfRecordTp
  · obtain ⟨whole, sys, name⟩ := names htp
    rw [if_pos htp, if_pos htp, receiver.accepts_append whole sys name,
      field_append (show 8 + 4 ≤ record.length by omega)]
    split <;> rfl
  · rw [if_neg htp, if_neg htp]
    split_ifs with henabled hsample
    · rw [fields hsample]
      rcases receiver.convert id record with ⟨converted, _ | ins⟩ <;> rfl
    · rfl
    · rfl

/-- The record in front of `rest` is dealt with, and nothing behind it changes.
-/
theorem Contained.process {block : Block}
    (contained : Contained receiver record) (alive : block.freed = false)
    (rest : Bytes) (todo : List Bytes) :
    (blockProcessEvent receiver (record ++ rest) block).1.drop record.length =
      rest ∧
    (blockProcessEvent receiver (record ++ rest) block).2.handed ++
      (blockProcessEvent receiver (record ++ rest) block).2.rest receiver todo =
      block.handed ++ block.rest receiver (record :: todo) := by
  have hbytes := fate_bytes receiver record block.remoteId
  rw [blockProcessEvent_fate, contained.fate_append, Block.rest_alive alive,
    handedOn_cons]
  generalize receiver.fate block.remoteId record = fate at hbytes
  cases fate with
  | accepted id =>
    have halive : { block with remoteId := id }.freed = false := alive
    exact ⟨List.drop_left, congrArg _ (Block.rest_alive halive todo)⟩
  | refused => exact ⟨List.drop_left, rfl⟩
  | passed event =>
    obtain ⟨hlength, -⟩ := hbytes
    refine ⟨?_, congrArg _ (Block.rest_alive alive todo)⟩
    rw [← hlength]
    exact List.drop_left
  | handed ins event =>
    obtain ⟨hlength, hheader⟩ := hbytes
    have hformed : WellFormed event :=
      ⟨(headerSize_congr hheader).trans (contained.size.trans hlength.symm),
        contained.least.trans_eq hlength.symm⟩
    rw [← hlength]
    refine ⟨List.drop_left, ?_⟩
    dsimp only [Fate.append, Fate.apply]
    rw [hformed.recordOf_append, Block.hand_rest alive]

private theorem append_split {event wire record tail : Bytes}
    (hbytes : event ++ wire = record ++ tail)
    (hwhole : record.length ≤ event.length) :
    ∃ rest, event = record ++ rest ∧ rest ++ wire = tail := by
  rcases List.append_eq_append_iff.mp hbytes with
    ⟨more, hrecord, hwire⟩ | ⟨more, hevent, htail⟩
  · have hnil : more = [] := by
      rw [hrecord, List.length_append] at hwhole
      exact List.length_eq_zero_iff.mp (by omega)
    rw [hnil] at hrecord hwire
    exact ⟨[], by simpa using hrecord.symm, by simpa using hwire⟩
  · exact ⟨more, hevent, htail.symm⟩

def Waiting (todo : List Bytes) (size : Nat) : Prop :=
  ∀ record rest, todo = record :: rest → size < record.length

private theorem headerSize_take (whole : headerLen ≤ size) (event : Bytes) :
    headerSize (event.take size) = headerSize event := by
  apply headerSize_congr
  rw [List.take_take, Nat.min_eq_left whole]

namespace Reader

/-- What is left and what is to come hold the records of `todo`; the rest of the
records was handed on. -/
structure Holds (receiver : Receiver) (records todo : List Bytes)
    (reader : Reader) : Prop where
  suffix : todo <:+ records
  handed : reader.block.handed ++ reader.block.rest receiver todo =
    handedOn receiver 0 records
  bytes : reader.pending ++ reader.source.wire = todo.flatten

namespace Holds

variable {receiver : Receiver} {records todo : List Bytes}
  {reader next : Reader}

private theorem init (receiver : Receiver) (buf : Bytes) {source : Source}
    (sent : source.wire = records.flatten) :
    Holds receiver records records (init buf source) :=
  ⟨List.suffix_rfl, rfl, sent⟩

variable (holds : Holds receiver records todo reader)

include holds

private theorem congr (hblock : next.block = reader.block)
    (hbytes : next.pending ++ next.source.wire =
      reader.pending ++ reader.source.wire) :
    Holds receiver records todo next :=
  ⟨holds.suffix, hblock ▸ holds.handed, hbytes.trans holds.bytes⟩

private theorem handed_prefix :
    reader.block.handed <+: handedOn receiver 0 records :=
  ⟨_, holds.handed⟩

private theorem handed_freed (freed : reader.block.freed = true) :
    reader.block.handed = handedOn receiver 0 records := by
  rw [← holds.handed, Block.rest, if_pos freed, List.append_nil]

private theorem finished (fits : Fits reader)
    (waiting : Waiting todo reader.size) (wire : reader.source.wire = []) :
    reader.block.handed = handedOn receiver 0 records := by
  have hnone : todo = [] := by
    cases todo with
    | nil => rfl
    | cons record rest =>
      have hshort := waiting record rest rfl
      have hbytes := congrArg List.length holds.bytes
      rw [wire, List.append_nil, fits.pending_length, List.flatten_cons,
        List.length_append] at hbytes
      omega
  rw [← holds.handed, hnone, Block.rest_nil, List.append_nil]

variable (contained : ∀ record ∈ records, Contained receiver record)
  (fits : Fits reader)

include contained fits

/-- A record can be taken if and only if all of it is there. -/
theorem complete {minimum : Nat} (alive : reader.block.freed = false)
    (hleast : headerLen ≤ minimum) (hmost : minimum ≤ headerLen + 1) :
    if reader.complete minimum then
      headerLen < headerSize reader.event ∧ ∃ rest, Holds receiver records rest
        ((reader.processed receiver).skip (headerSize reader.event))
    else Waiting todo reader.size := by
  have htaken := fits.pending_length
  cases todo with
  | nil =>
    have hnil := holds.bytes
    rw [List.flatten_nil, List.append_eq_nil_iff] at hnil
    rw [hnil.1, List.length_nil] at htaken
    rw [if_neg]
    · intro record rest absurd
      cases absurd
    · rw [complete_iff]
      intro both
      have hzero : headerLen ≤ 0 := htaken ▸ hleast.trans both.1
      exact absurd hzero (by decide)
  | cons record rest =>
    have hrecord := contained record (holds.suffix.mem (.head rest))
    have hbytes := holds.bytes.trans List.flatten_cons
    have hsize : headerLen ≤ reader.size →
        headerSize reader.event = record.length := by
      intro whole
      rw [← headerSize_take whole]
      change headerSize reader.pending = _
      rw [← headerSize_append (whole.trans htaken.ge) reader.source.wire, hbytes,
        headerSize_append hrecord.least.le, hrecord.size]
    split
    · rename_i whole
      obtain ⟨henough, hinside⟩ := complete_iff.mp whole
      have hsame := hsize (hleast.trans henough)
      obtain ⟨more, hpending, hmore⟩ :=
        append_split hbytes (by rw [htaken, ← hsame]; exact hinside)
      have hall : reader.event = record ++ (more ++ reader.event.drop reader.size) := by
        rw [← List.append_assoc, ← hpending, pending, List.take_append_drop]
      have hlength : reader.size - record.length = more.length := by
        rw [← htaken, hpending, List.length_append]
        omega
      obtain ⟨hdrop, hhanded⟩ :=
        hrecord.process alive (more ++ reader.event.drop reader.size) rest
      rw [← hall] at hdrop hhanded
      rw [hsame]
      refine ⟨hrecord.least, rest, (List.suffix_cons record rest).trans holds.suffix,
        hhanded.trans holds.handed, ?_⟩
      rw [pending, skip_event, fits.processed_event, hdrop]
      change (more ++ _).take (reader.size - record.length) ++ _ = _
      rw [hlength, List.take_left]
      exact hmore
    · rename_i short
      rw [complete_iff] at short
      intro other others hcons
      cases hcons
      by_contra hwhole
      have hless := hrecord.least
      have henough : headerLen ≤ reader.size := by omega
      exact short ⟨by omega, by rw [hsize henough]; omega⟩

/-- The stream ends only behind the last record. -/
theorem ended {after : Source} (waiting : Waiting todo reader.size)
    (nothing : reader.source.read (bufLen - reader.size) = (some [], after)) :
    reader.block.handed = handedOn receiver 0 records := by
  cases htodo : todo with
  | nil => rw [← holds.handed, htodo, Block.rest_nil, List.append_nil]
  | cons record rest =>
    have hrecord := contained record (holds.suffix.mem (htodo ▸ .head rest))
    have hless := waiting record rest htodo
    have hbound := headerSize_lt record
    rw [hrecord.size] at hbound
    exact holds.finished fits waiting
      ((@Source.read_nil_iff (bufLen - reader.size) reader.source (by omega)).mp
        (congrArg Prod.fst nothing)).1

end Holds

end Reader

private theorem waiting_start
    (contained : ∀ record ∈ records, Contained receiver record) :
    Waiting records 0 := by
  intro record rest hrecords
  have hmember : record ∈ records := hrecords ▸ .head rest
  exact Nat.zero_lt_of_lt (contained record hmember).least

namespace Scan

structure Framed (receiver : Receiver) (records : List Bytes) (scan : Scan) :
    Prop extends Valid scan where
  holds : ∃ todo, scan.Holds receiver records todo ∧
    (scan.reading = true → Waiting todo scan.size)

def Settled (receiver : Receiver) (records : List Bytes) (scan : Scan) : Prop :=
  scan.block.freed = true ∧ scan.block.handed = handedOn receiver 0 records ∨
    Framed receiver records scan ∧ scan.reading = true

variable {receiver : Receiver} {records todo : List Bytes} {link : Link}
  {scan next last : Scan}

section

variable (contained : ∀ record ∈ records, Contained receiver record)

include contained

private theorem complete_waiting (link : Link) (valid : Valid scan)
    (holds : scan.Holds receiver records todo) :
    if scan.complete link.minimum then
      headerLen < headerSize scan.event ∧
      ∃ rest, Reader.Holds receiver records rest
        ((scan.processed receiver).skip (headerSize scan.event))
    else Waiting todo scan.size :=
  holds.complete contained valid.toFits valid.alive
    (by cases link <;> decide) (by cases link <;> decide)

section

variable (framed : Framed receiver records scan)

include framed

private theorem Framed.body_inl (hbody : scan.body link receiver = .inl next) :
    Framed receiver records next := by
  obtain ⟨valid, todo, holds, waiting⟩ := framed
  refine ⟨valid.body hbody, ?_⟩
  have hwaiting := complete_waiting contained link valid holds
  have hround := body_round link receiver scan
  rw [hbody] at hround
  cases hround with
  | read chunk source reading got some =>
    refine ⟨todo, holds.congr rfl ?_, fun absurd => (nomatch absurd)⟩
    rw [valid.toFits.add_pending (valid.front reading), List.append_assoc,
      ← (Source.read_some got).1]
    rfl
  | processed scanning whole alive =>
    rw [if_pos whole] at hwaiting
    obtain ⟨-, rest, hnext⟩ := hwaiting
    exact ⟨rest, hnext, fun absurd => (nomatch absurd)⟩
  | moved scanning short =>
    rw [short, if_neg Bool.false_ne_true] at hwaiting
    refine ⟨todo, holds.congr rfl ?_, fun _ => hwaiting⟩
    rw [valid.toFits.moved_pending]
    rfl

private theorem Framed.body_inr (hbody : scan.body link receiver = .inr last) :
    Settled receiver records last := by
  have framed' := framed
  obtain ⟨valid, todo, holds, waiting⟩ := framed
  have hround := body_round link receiver scan
  rw [hbody] at hround
  cases hround with
  | idle reading nothing => exact .inr ⟨framed', reading⟩
  | ended source reading nothing =>
    have hwire : source.wire = scan.source.wire := (Source.read_some nothing).1
    cases link with
    | tcp =>
      exact .inl ⟨rfl, holds.ended contained valid.toFits (waiting reading) nothing⟩
    | cdev =>
      refine .inr ⟨⟨⟨⟨valid.position, valid.inside, valid.room⟩, valid.front,
        valid.alive⟩, todo, holds.congr rfl ?_, waiting⟩, reading⟩
      exact congrArg (scan.pending ++ ·) hwire
  | refused scanning whole freed =>
    have hwaiting := complete_waiting contained link valid holds
    rw [if_pos whole] at hwaiting
    obtain ⟨-, rest, hnext⟩ := hwaiting
    exact .inl ⟨freed, hnext.handed_freed freed⟩

private theorem Framed.moves : ¬ Spins link receiver scan := by
  intro spins
  obtain ⟨valid, todo, holds, _⟩ := framed
  have hwaiting := complete_waiting contained link valid holds
  rw [if_pos spins.whole, spins.zero] at hwaiting
  exact absurd hwaiting.1 (Nat.not_lt_zero _)

private theorem Framed.receive :
    ∃ last, scan.receive link receiver = some last ∧
      Settled receiver records last := by
  have hnext : ∀ state next, Framed receiver records state →
      state.body link receiver = .inl next → Framed receiver records next :=
    fun state next framed hbody => framed.body_inl contained hbody
  obtain ⟨last, hlast⟩ := @iterate_of_decreasing _ _ (body link receiver)
    scan measure (fun middle next reached hbody => by
      have hmiddle := reached.preserves (Framed receiver records) hnext framed
      exact measure_body hbody hmiddle.toValid (hmiddle.moves contained))
    _ (measure_lt_rounds scan)
  refine ⟨last, hlast, ?_⟩
  exact iterate_preserves (Framed receiver records) (Settled receiver records)
    hnext (fun state result framed hbody => framed.body_inr contained hbody) framed
    hlast

end

theorem Settled.receiveAll (settled : Settled receiver records scan)
    (calls : Nat) :
    ∃ last, scan.receiveAll link receiver calls = some last ∧
      Settled receiver records last := by
  induction calls generalizing scan with
  | zero => exact ⟨scan, rfl, settled⟩
  | succ calls ih =>
    rw [Scan.receiveAll]
    split_ifs with freed
    · exact ⟨scan, rfl, settled⟩
    · rcases settled with ⟨hfreed, _⟩ | ⟨framed, _⟩
      · exact absurd hfreed freed
      · obtain ⟨next, hnext, hsettled⟩ := framed.receive contained
        rw [hnext]
        exact ih hsettled

theorem Settled.start {buf : Bytes} (room : bufLen ≤ buf.length)
    {source : Source} (sent : source.wire = records.flatten) :
    Settled receiver records (Scan.init buf source) :=
  .inr ⟨⟨Valid.init room source, records, .init receiver buf sent,
    fun _ => waiting_start contained⟩, rfl⟩

end

theorem Settled.handed_prefix (settled : Settled receiver records scan) :
    scan.block.handed <+: handedOn receiver 0 records := by
  rcases settled with ⟨_, hhanded⟩ | ⟨⟨_, todo, holds, _⟩, _⟩
  · exact hhanded ▸ List.prefix_rfl
  · exact holds.handed_prefix

theorem Settled.finished (settled : Settled receiver records scan)
    (hread : scan.source.wire = [] ∨ scan.block.freed = true) :
    scan.block.handed = handedOn receiver 0 records := by
  rcases settled with ⟨_, hhanded⟩ | ⟨⟨valid, todo, holds, waiting⟩, reading⟩
  · exact hhanded
  · rcases hread with hwire | hfreed
    · exact holds.finished valid.toFits (waiting reading) hwire
    · exact holds.handed_freed hfreed

end Scan

namespace Reader

/-- Between two rounds or calls a whole record in front was dealt with. -/
structure Between (receiver : Receiver) (records : List Bytes)
    (reader : Reader) : Prop extends Valid reader where
  holds : ∃ todo, reader.consume.Holds receiver records todo ∧
    (reader.ready = false → Waiting todo reader.size)

def Settled (receiver : Receiver) (records : List Bytes)
    (state : Reader × ReadEnd) : Prop :=
  state.1.block.freed = true ∧
      state.1.block.handed = handedOn receiver 0 records ∨
    Between receiver records state.1 ∧
      (state.2 = .nothing → state.1.ready = false)

variable {receiver : Receiver} {records todo : List Bytes} {link : Link}
  {init : Bool} {reader next : Reader} {last : Reader × ReadEnd}

private theorem consume_short (short : reader.ready = false) :
    reader.consume = reader := by
  rw [consume, short]
  rfl

/-- A read adds what it gets to what is there. -/
theorem Fits.fill_pending (fits : Fits reader) (link : Link) (init : Bool) :
    (reader.fill link init).pending ++ (reader.fill link init).source.wire =
      reader.pending ++ reader.source.wire := by
  unfold Reader.fill
  split
  · have hadded := @Fits.add_pending _ fits.moved rfl
      ((reader.source.read (bufLen - reader.size)).1.getD [])
      (reader.source.read (bufLen - reader.size)).2
    rw [fits.moved_pending] at hadded
    rw [← (reader.source.read_spec (bufLen - reader.size)).1, ← List.append_assoc,
      ← hadded]
    rfl
  · rfl

private theorem fill_block (link : Link) (init : Bool) (reader : Reader) :
    (reader.fill link init).block = reader.block ∨
      (reader.fill link init).block = { reader.block with freed := true } := by
  unfold fill
  split
  · dsimp only
    split
    · cases link with
      | tcp => exact .inr rfl
      | cdev => exact .inl rfl
    · exact .inl rfl
  · exact .inl rfl

section

variable (contained : ∀ record ∈ records, Contained receiver record)

include contained

private theorem ready_waiting (valid : Valid reader)
    (holds : reader.Holds receiver records todo) :
    if reader.ready then
      headerLen < headerSize reader.event ∧ ∃ rest, Holds receiver records rest
        ((reader.processed receiver).skip (headerSize reader.event))
    else Waiting todo reader.size :=
  holds.complete contained valid.toFits valid.alive (by decide) (Nat.le_refl _)

/-- What a round has after its read. -/
theorem Between.fill (between : Between receiver records reader)
    {middle : Reader} (hmiddle : reader.consume.fill link init = middle) :
    middle.block.freed = true ∧
      middle.block.handed = handedOn receiver 0 records ∨
    middle.Valid ∧ ∃ todo, middle.Holds receiver records todo := by
  obtain ⟨todo, holds, -⟩ := between.holds
  obtain ⟨hsource, hsame⟩ := consume_kept reader
  have hfits := between.toFits.consume
  have hblock := fill_block link init reader.consume
  subst hmiddle
  cases hfreed : (reader.consume.fill link init).block.freed with
  | true =>
    have hangs := (fill_freed between.alive).mp hfreed
    have hwaiting := ready_waiting contained ⟨hfits, hsame ▸ between.alive⟩ holds
    rw [hangs.short, if_neg Bool.false_ne_true] at hwaiting
    have hhanded := holds.finished hfits hwaiting (hsource ▸ hangs.wire)
    refine .inl ⟨rfl, ?_⟩
    rcases hblock with hblock | hblock
    · rw [hblock, hhanded]
    · rw [hblock, ← hhanded]
  | false =>
    refine .inr ⟨⟨hfits.fill, hfreed⟩, todo, ?_⟩
    rcases hblock with hblock | hblock
    · exact holds.congr hblock (hfits.fill_pending link init)
    · rw [hblock] at hfreed
      cases hfreed

private theorem processed_between (valid : Valid reader)
    (whole : reader.ready = true) (holds : reader.Holds receiver records todo) :
    ((reader.processed receiver).block.freed = true →
      (reader.processed receiver).block.handed = handedOn receiver 0 records) ∧
    ((reader.processed receiver).Valid →
      Between receiver records (reader.processed receiver)) := by
  have hwaiting := ready_waiting contained valid holds
  have hready : (reader.processed receiver).ready = true :=
    valid.toFits.processed_complete.trans whole
  rw [if_pos whole] at hwaiting
  obtain ⟨-, rest, hnext⟩ := hwaiting
  refine ⟨hnext.handed_freed, fun hvalid => ⟨hvalid, rest, ?_, ?_⟩⟩
  · rw [consume, if_pos hready, valid.toFits.processed_headerSize]
    exact hnext
  · intro short
    cases hready.symm.trans short

section

variable (between : Between receiver records reader)

include between

private theorem Between.body_inl
    (hbody : reader.body link receiver init = .inl next) :
    Between receiver records next := by
  obtain ⟨hvalid, hwhole, rfl, hnext⟩ := Reader.body_inl between.toValid hbody
  rcases between.fill contained rfl with ⟨hfreed, -⟩ | ⟨-, todo, holds⟩
  · cases hvalid.alive.symm.trans hfreed
  · exact (processed_between contained hvalid hwhole holds).2 hnext

private theorem Between.body_inr
    (hbody : reader.body link receiver init = .inr last) :
    Settled receiver records last := by
  generalize hmiddle : reader.consume.fill link init = middle
  have hfill := between.fill contained hmiddle
  have hholds : middle.Valid → ∃ todo, middle.Holds receiver records todo := by
    intro hvalid
    rcases hfill with ⟨hfreed, -⟩ | ⟨-, hholds⟩
    · cases hvalid.alive.symm.trans hfreed
    · exact hholds
  rcases @body_cases link receiver init reader between.toValid middle hmiddle with
    ⟨hfreed, hend⟩ | ⟨hvalid, hshort, hend⟩ |
    ⟨hvalid, hwhole, ⟨hnext, hon | hend⟩ | ⟨hfreed, hend⟩⟩
  · cases hend.symm.trans hbody
    rcases hfill with hended | ⟨hvalid, -⟩
    · exact .inl hended
    · cases hvalid.alive.symm.trans hfreed
  · cases hend.symm.trans hbody
    obtain ⟨todo, holds⟩ := hholds hvalid
    have hwaiting := ready_waiting contained hvalid holds
    rw [hshort, if_neg Bool.false_ne_true] at hwaiting
    rw [← consume_short hshort] at holds
    exact .inr ⟨⟨hvalid, todo, holds, fun _ => hwaiting⟩, fun _ => hshort⟩
  · cases hon.symm.trans hbody
  · cases hend.symm.trans hbody
    obtain ⟨todo, holds⟩ := hholds hvalid
    exact .inr ⟨(processed_between contained hvalid hwhole holds).2 hnext,
      fun absurd => (nomatch absurd)⟩
  · cases hend.symm.trans hbody
    obtain ⟨todo, holds⟩ := hholds hvalid
    exact .inl ⟨hfreed,
      (processed_between contained hvalid hwhole holds).1 hfreed⟩

/-- No record that is read has size zero. -/
theorem Between.decreases (hbody : reader.body link receiver init = .inl next) :
    next.consume.total < reader.consume.total := by
  have htotal := consume_total_body between.toValid hbody
  obtain ⟨hvalid, hwhole, -, -⟩ := Reader.body_inl between.toValid hbody
  rcases between.fill contained rfl with ⟨hfreed, -⟩ | ⟨-, todo, holds⟩
  · cases hvalid.alive.symm.trans hfreed
  · have hwaiting := ready_waiting contained hvalid holds
    rw [if_pos hwhole] at hwaiting
    omega

private theorem Between.blockReadEvent :
    ∃ last, reader.blockReadEvent link receiver init = some last ∧
      Settled receiver records last := by
  have hnext : ∀ state next, Between receiver records state →
      Reader.body link receiver init state = .inl next →
      Between receiver records next :=
    fun state next between hbody => between.body_inl contained hbody
  have hrounds : reader.consume.total < reader.rounds := by
    have hconsume := consume_total_le reader
    unfold rounds
    unfold total at hconsume ⊢
    omega
  obtain ⟨last, hlast⟩ := @iterate_of_decreasing _ _
    (Reader.body link receiver init) reader (fun reader => reader.consume.total)
    (fun middle next reached hbody =>
      (reached.preserves (Between receiver records) hnext between).decreases
        contained hbody) _ hrounds
  exact ⟨last, hlast, iterate_preserves (Between receiver records)
    (Settled receiver records) hnext
    (fun state last between hbody => between.body_inr contained hbody) between
    hlast⟩

end

private theorem Settled.readAll (settled : Settled receiver records last)
    (calls : List Bool) :
    ∃ result, Reader.readAll link receiver calls last = some result ∧
      Settled receiver records result := by
  induction calls generalizing last with
  | nil => exact ⟨last, rfl, settled⟩
  | cons init calls ih =>
    rw [Reader.readAll]
    split_ifs with freed
    · exact ⟨last, rfl, settled⟩
    · rcases settled with ⟨hfreed, _⟩ | ⟨between, _⟩
      · exact absurd hfreed freed
      · obtain ⟨next, hnext, hsettled⟩ :=
          @Between.blockReadEvent _ _ link init _ contained between
        rw [hnext]
        exact ih hsettled

private theorem Settled.start {buf : Bytes} (room : bufLen ≤ buf.length)
    {source : Source} (sent : source.wire = records.flatten) :
    Settled receiver records (Reader.init buf source, .nothing) :=
  .inr ⟨⟨Valid.init room source, records, .init receiver buf sent,
    fun _ => waiting_start contained⟩, fun _ => rfl⟩

end

private theorem Settled.handed_prefix
    (settled : Settled receiver records last) :
    last.1.block.handed <+: handedOn receiver 0 records := by
  rcases settled with ⟨_, hhanded⟩ | ⟨⟨_, todo, holds, _⟩, _⟩
  · exact hhanded ▸ List.prefix_rfl
  · exact (consume_kept last.1).2 ▸ holds.handed_prefix

private theorem Settled.finished (settled : Settled receiver records last)
    (hread : last.1.source.wire = [] ∧ last.2 = .nothing ∨
      last.1.block.freed = true) :
    last.1.block.handed = handedOn receiver 0 records := by
  rcases settled with ⟨_, hhanded⟩ | ⟨⟨valid, todo, holds, waiting⟩, hnone⟩
  · exact hhanded
  · rcases hread with ⟨hwire, hkind⟩ | hfreed
    · rw [consume_short (hnone hkind)] at holds
      exact holds.finished valid.toFits (waiting (hnone hkind)) hwire
    · cases valid.alive.symm.trans hfreed

end Reader

def twoRecords : List Bytes :=
  [[9, 0, 0, 0, 0, 0, 9, 0, 1], [2, 0, 0, 0, 0, 0, 9, 0, 2]]

theorem twoRecords_contained :
    ∀ record ∈ twoRecords, Contained (plainReceiver true) record := by
  intro record member
  simp only [twoRecords, List.mem_cons, List.not_mem_nil, or_false] at member
  rcases member with rfl | rfl
  · exact ⟨⟨by decide, by decide⟩, by decide, fun _ _ _ => rfl⟩
  · exact ⟨⟨by decide, by decide⟩, by decide, fun _ _ _ => rfl⟩

end PerfProf.Spread
