import PerfProf.Data.Loop
import PerfProf.Spread.Record

namespace PerfProf.Spread

open PerfProf.Data

/-! The receiving ends.  `event_copy` and `event_buf` are the memory that starts
there; its first `BUF_LEN` bytes are the buffer, and they keep what earlier
records have left in them. -/

/-- What a peer has sent, at most how many bytes each of the next reads gets of
it, and whether the peer shuts the connection down behind it. -/
structure Source where
  wire : Bytes
  wants : List Nat
  shut : Bool
  deriving DecidableEq, Repr

/-- `recv` or `read` into a buffer with `space` left.  `none` is `EAGAIN`, and
no bytes are the end of the stream. -/
def Source.read (space : Nat) (source : Source) : Option Bytes × Source :=
  match source.wire, source.wants with
  | [], _ => (if source.shut then some [] else none, source)
  | _ :: _, [] => (none, source)
  | byte :: wire, want :: wants =>
    (some ((byte :: wire).take (min (max want 1) space)),
      { source with
        wire := (byte :: wire).drop (min (max want 1) space)
        wants := wants })

theorem Source.read_none {source after : Source}
    (nothing : source.read space = (none, after)) : after = source := by
  unfold Source.read at nothing
  split at nothing
  · exact (Prod.mk.inj nothing).2.symm
  · exact (Prod.mk.inj nothing).2.symm
  · cases (Prod.mk.inj nothing).1

theorem Source.read_some {source after : Source} {chunk : Bytes}
    (got : source.read space = (some chunk, after)) :
    chunk ++ after.wire = source.wire ∧ chunk.length ≤ space := by
  unfold Source.read at got
  split at got
  · rename_i hwire
    obtain ⟨hchunk, rfl⟩ := Prod.mk.inj got
    split at hchunk
    · cases hchunk
      exact ⟨rfl, Nat.zero_le _⟩
    · cases hchunk
  · cases (Prod.mk.inj got).1
  · rename_i byte wire want wants hwire _
    obtain ⟨hchunk, rfl⟩ := Prod.mk.inj got
    cases hchunk
    refine ⟨(List.take_append_drop _ _).trans hwire.symm, ?_⟩
    rw [List.length_take]
    omega

theorem Source.read_spec (space : Nat) (source : Source) :
    (source.read space).1.getD [] ++ (source.read space).2.wire = source.wire ∧
      ((source.read space).1.getD []).length ≤ space := by
  cases hread : source.read space with
  | mk got after =>
    cases got with
    | none => exact ⟨by rw [read_none hread]; rfl, Nat.zero_le _⟩
    | some chunk => exact read_some hread

theorem Source.read_nil_iff (source : Source) (room : 0 < space) :
    (source.read space).1 = some [] ↔
      source.wire = [] ∧ source.shut = true := by
  unfold Source.read
  split
  · rename_i hwire
    cases hshut : source.shut <;> simp [hwire]
  · rename_i hwire _
    simp [hwire]
  · rename_i hwire _
    simp [hwire]
    omega

/-- The two kinds of connections. -/
inductive Link where
  | tcp
  | cdev
  deriving DecidableEq, Repr

/-- The TCP loop asks for more than a header, `handle_cdev_event` for a header.
-/
def Link.minimum : Link → Nat
  | .tcp => headerLen + 1
  | .cdev => headerLen

/-- The end of a TCP stream disconnects, which frees the block. -/
def Block.hangUp (link : Link) (block : Block) : Block :=
  match link with
  | .tcp => { block with freed := true }
  | .cdev => block

/-- `buf` is the memory, of which `received` bytes were received, `event` points
to `pos`, and `size` bytes are left. -/
structure Reader where
  source : Source
  buf : Bytes
  received : Nat
  pos : Nat
  size : Nat
  block : Block
  deriving DecidableEq, Repr

namespace Reader

def init (buf : Bytes) (source : Source) : Reader :=
  ⟨source, buf, 0, 0, 0, .init⟩

def event (reader : Reader) : Bytes := reader.buf.drop reader.pos

def pending (reader : Reader) : Bytes := reader.event.take reader.size

/-- A whole record can be taken. -/
def complete (minimum : Nat) (reader : Reader) : Bool :=
  minimum ≤ reader.size && headerSize reader.event ≤ reader.size

/-- What is left is moved to the front. -/
def moved (reader : Reader) : Reader :=
  { reader with
    buf := overwrite reader.buf 0 reader.pending
    received := reader.size
    pos := 0 }

/-- A read has put `chunk` behind what is at the front. -/
def add (chunk : Bytes) (source : Source) (reader : Reader) : Reader :=
  { reader with
    source := source
    buf := overwrite reader.buf reader.size chunk
    received := reader.size + chunk.length
    size := reader.size + chunk.length }

def skip (len : Nat) (reader : Reader) : Reader :=
  { reader with pos := reader.pos + len, size := reader.size - len }

def setEvent (event : Bytes) (reader : Reader) : Reader :=
  { reader with buf := reader.buf.take reader.pos ++ event }

def processed (receiver : Receiver) (reader : Reader) : Reader :=
  let (event, block) := blockProcessEvent receiver reader.event reader.block
  { reader.setEvent event with block := block }

end Reader

/-- The push loops on `event_copy`.  `reading` says that the next thing to do is
a read. -/
structure Scan extends Reader where
  reading : Bool
  deriving DecidableEq, Repr

namespace Scan

def init (buf : Bytes) (source : Source) : Scan := ⟨.init buf source, true⟩

/-- One round of the loops of `handle_inout` with `tcp_process_event`, or of
`handle_cdev_event`. -/
def body (link : Link) (receiver : Receiver) (scan : Scan) : Scan ⊕ Scan :=
  if scan.reading then
    match scan.source.read (bufLen - scan.size) with
    | (none, source) => .inr { scan with source := source }
    | (some [], source) =>
      .inr { scan with source := source, block := scan.block.hangUp link }
    | (some chunk, source) => .inl ⟨scan.add chunk source, false⟩
  else if scan.complete link.minimum then
    let (event, block) := blockProcessEvent receiver scan.event scan.block
    let next := { scan.setEvent event with block := block }
    if block.freed then .inr ⟨next, false⟩
    else
      .inl ⟨{ next with
        pos := scan.pos + headerSize event
        size := scan.size - headerSize scan.event }, false⟩
  else .inl ⟨scan.moved, true⟩

inductive Round (link : Link) (receiver : Receiver) (scan : Scan) :
    Scan ⊕ Scan → Prop
  | idle (reading : scan.reading = true)
      (nothing : (scan.source.read (bufLen - scan.size)).1 = none) :
      Round link receiver scan (.inr scan)
  | ended (source : Source) (reading : scan.reading = true)
      (nothing : scan.source.read (bufLen - scan.size) = (some [], source)) :
      Round link receiver scan
        (.inr { scan with source := source, block := scan.block.hangUp link })
  | read (chunk : Bytes) (source : Source) (reading : scan.reading = true)
      (got : scan.source.read (bufLen - scan.size) = (some chunk, source))
      (some : chunk ≠ []) :
      Round link receiver scan (.inl ⟨scan.add chunk source, false⟩)
  | refused (scanning : scan.reading = false)
      (whole : scan.complete link.minimum = true)
      (freed : (scan.processed receiver).block.freed = true) :
      Round link receiver scan (.inr ⟨scan.processed receiver, false⟩)
  | processed (scanning : scan.reading = false)
      (whole : scan.complete link.minimum = true)
      (alive : (scan.processed receiver).block.freed = false) :
      Round link receiver scan
        (.inl ⟨(scan.processed receiver).skip (headerSize scan.event), false⟩)
  | moved (scanning : scan.reading = false)
      (short : scan.complete link.minimum = false) :
      Round link receiver scan (.inl ⟨scan.moved, true⟩)

theorem body_round (link : Link) (receiver : Receiver) (scan : Scan) :
    Round link receiver scan (scan.body link receiver) := by
  unfold body
  split
  · rename_i reading
    split
    · rename_i source nothing
      rw [Source.read_none nothing]
      exact .idle reading (congrArg Prod.fst nothing)
    · rename_i source nothing
      exact .ended source reading nothing
    · rename_i chunk source some got
      exact .read chunk source reading got some
  · rename_i scanning
    have scanning := eq_false_of_ne_true scanning
    split
    · rename_i whole
      dsimp only
      split
      · rename_i freed
        exact .refused scanning whole freed
      · rename_i alive
        rw [blockProcessEvent_headerSize]
        exact .processed scanning whole (eq_false_of_ne_true alive)
    · rename_i short
      exact .moved scanning (eq_false_of_ne_true short)

def rounds (scan : Scan) : Nat :=
  scan.size + 3 * scan.source.wire.length + 2

def receive (link : Link) (receiver : Receiver) (scan : Scan) : Option Scan :=
  iterate (body link receiver) scan.rounds scan

def receiveAll (link : Link) (receiver : Receiver) : Nat → Scan → Option Scan
  | 0, scan => some scan
  | calls + 1, scan =>
    if scan.block.freed then some scan
    else (scan.receive link receiver).bind (receiveAll link receiver calls)

end Scan

/-- How `block_read_event` ends: with `NULL`, with an event, or in a block that
`tcp_recv` has freed and that it goes on to use. -/
inductive ReadEnd where
  | nothing
  | event
  | afterFree
  deriving DecidableEq, Repr

namespace Reader

/-- `block_read_event` asks for more than a header. -/
def ready (reader : Reader) : Bool := reader.complete (headerLen + 1)

def consume (reader : Reader) : Reader :=
  if reader.ready then reader.skip (headerSize reader.event) else reader

/-- `read_init`, after what is left was moved to the front. -/
def fill (link : Link) (init : Bool) (reader : Reader) : Reader :=
  if init && !reader.ready then
    let (got, source) := reader.source.read (bufLen - reader.size)
    { reader.moved.add (got.getD []) source with
      block := if got = some [] then reader.block.hangUp link else reader.block }
  else reader

def hand (ins : Nat) (reader : Reader) : Reader :=
  { reader with block := reader.block.hand ins (recordOf reader.event) }

def readEvent (receiver : Receiver) (reader : Reader) :
    Reader ⊕ (Reader × ReadEnd) :=
  if headerType reader.event = perfRecordTp then
    let next := reader.processed receiver
    if next.block.freed then .inr (next, .nothing) else .inl next
  else if receiver.enabled then
    if headerType reader.event = perfRecordSample then
      match receiver.convert reader.block.remoteId reader.event with
      | (event, some ins) => .inr ((reader.setEvent event).hand ins, .event)
      | (event, none) => .inl (reader.setEvent event)
    else .inr (reader.hand 0, .event)
  else .inl reader

/-- From `tcp_retry` on. -/
def body (link : Link) (receiver : Receiver) (init : Bool) (reader : Reader) :
    Reader ⊕ (Reader × ReadEnd) :=
  let reader := reader.consume.fill link init
  if reader.block.freed then .inr (reader, .afterFree)
  else if reader.ready then reader.readEvent receiver
  else .inr (reader, .nothing)

def rounds (reader : Reader) : Nat :=
  2 * (reader.size + reader.source.wire.length) + 2

def blockReadEvent (link : Link) (receiver : Receiver) (init : Bool)
    (reader : Reader) : Option (Reader × ReadEnd) :=
  iterate (body link receiver init) reader.rounds reader

def readAll (link : Link) (receiver : Receiver) :
    List Bool → Reader × ReadEnd → Option (Reader × ReadEnd)
  | [], state => some state
  | init :: calls, state =>
    if state.1.block.freed then some state
    else
      (state.1.blockReadEvent link receiver init).bind
        (readAll link receiver calls)

end Reader

/-- The file and `event_copy`, which is not initialised at the start of a call.
-/
structure FileRead where
  content : Bytes
  pos : Nat
  copy : Bytes
  block : Block
  left : Nat
  deriving DecidableEq, Repr

/-- How `handle_file_event` ends.  `overrun` is a write behind `event_copy`. -/
inductive FileEnd where
  | returned
  | closed
  | overrun
  deriving DecidableEq, Repr

namespace FileRead

/-- `fread`: what is there of `count` bytes. -/
def fread (count : Nat) (file : FileRead) : Bytes :=
  (file.content.drop file.pos).take count

/-- The bytes of `fread` are in `event_copy` from `offset` on. -/
def store (offset : Nat) (bytes : Bytes) (file : FileRead) : FileRead :=
  { file with
    pos := file.pos + bytes.length
    copy := overwrite file.copy offset bytes }

/-- `event->header.size - len` as a `size_t`. -/
def remaining (size : Nat) : Nat :=
  if headerLen ≤ size then size - headerLen else 2 ^ 64 - (headerLen - size)

/-- What the second `fread` of a round gets, when the header is there. -/
def payload (file : FileRead) : Bytes :=
  if (file.fread headerLen).length = headerLen then
    (file.store 0 (file.fread headerLen)).fread
      (remaining (headerSize (file.store 0 (file.fread headerLen)).copy))
  else []

def len (file : FileRead) : Nat :=
  (file.fread headerLen).length + file.payload.length

def load (file : FileRead) : FileRead :=
  (file.store 0 (file.fread headerLen)).store (file.fread headerLen).length file.payload

def body (receiver : Receiver) (file : FileRead) :
    FileRead ⊕ (FileEnd × FileRead) :=
  match file.left with
  | 0 => .inr (.returned, file)
  | left + 1 =>
    if bufLen < file.len then .inr (.overrun, file.load)
    else if file.len = headerSize file.load.copy then
      let (event, block) :=
        blockProcessEvent receiver file.load.copy file.load.block
      let next := { file.load with copy := event, block := block, left := left }
      if block.freed then .inr (.returned, next) else .inl next
    else .inr (.closed, { file.load with
      block := { file.load.block with freed := true } })

end FileRead

end PerfProf.Spread
