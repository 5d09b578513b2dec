import PerfProf.Data.Circ
import PerfProf.Data.Ledger
import PerfProf.Spread.Record

namespace PerfProf.Spread

open PerfProf.Data

/-! The senders: a TCP client and a connected character device, each with a
circular buffer and a count of what it drops. -/

abbrev Ring := Circ bufLen UInt8

/-- A record that is broadcast.  `header.size` is a `u16`. -/
structure Record where
  bytes : Bytes
  short : bytes.length < bufLen
  deriving DecidableEq

/-- A number as `width` little-endian bytes. -/
def encode : Nat → Nat → Bytes
  | 0, _ => []
  | width + 1, number => UInt8.ofNat number :: encode width (number / 256)

@[simp] theorem encode_length (width number : Nat) :
    (encode width number).length = width := by
  induction width generalizing number with
  | zero => rfl
  | succ width ih => rw [encode, List.length_cons, ih]

def lostLen : Nat := 24

/-- `PERF_RECORD_LOST` with its type, misc, size, id and count. -/
def lostRecord (lost : Nat) : Bytes :=
  encode 4 2 ++ encode 2 0 ++ encode 2 lostLen ++ encode 8 0 ++ encode 8 lost

theorem lostRecord_length (lost : Nat) :
    (lostRecord lost).length = lostLen := by
  simp [lostRecord, lostLen]

inductive SendResult where
  | again
  | sent (count : Nat)
  deriving DecidableEq, Repr

def SendResult.taken (len : Nat) : SendResult → Option Nat
  | again => none
  | sent count => some (max 1 (min count len))

theorem SendResult.taken_le {len amount : Nat} {result : SendResult}
    (some : len ≠ 0) (htaken : result.taken len = .some amount) :
    0 < amount ∧ amount ≤ len := by
  cases result with
  | again => cases htaken
  | sent count =>
    cases htaken
    omega

theorem space_lt (ring : Ring) : ring.space < bufLen := Nat.mod_lt _ (by decide)

def frame? : Note Record → Option Bytes
  | .queued record => some record.bytes
  | .dropped _ => none
  | .lost count => some (lostRecord count)

def stream (log : List (Note Record)) : Bytes := (log.filterMap frame?).flatten

/-- The sending end of a connection: the ring, the lost count, `EPOLLOUT`, what
has been put on the wire, and what has happened. -/
structure Sender where
  ring : Ring
  lost : Nat
  armed : Bool
  wire : Bytes
  log : List (Note Record)

namespace Sender

def init : Sender where
  ring := ⟨fun _ => 0, 0, 0, by decide, by decide⟩
  lost := 0
  armed := false
  wire := []
  log := []

/-- `send` or `write` has taken some bytes, which lie one after the other. -/
def sent (amount : Nat) (sender : Sender) : Sender :=
  { sender with
    ring := sender.ring.drop amount
    wire := sender.wire ++ slice sender.ring.tail amount sender.ring.cells }

def drop (record : Record) (sender : Sender) : Sender :=
  { sender with
    lost := sender.lost + 1
    log := sender.log ++ [.dropped record] }

end Sender

def bufWrite (bytes : Bytes) (ring : Ring) (fits : bytes.length ≤ ring.space) :
    Ring :=
  if wraps : bufLen ≤ ring.head + bytes.length then
    { ring with
      cells := blit 0 (bytes.drop (bufLen - ring.head))
        (blit ring.head (bytes.take (bufLen - ring.head)) ring.cells)
      head := bytes.length - (bufLen - ring.head)
      head_lt := Nat.lt_of_le_of_lt (Nat.sub_le _ _) (Nat.lt_of_le_of_lt fits (space_lt ring)) }
  else
    { ring with
      cells := blit ring.head bytes ring.cells
      head := ring.head + bytes.length
      head_lt := Nat.lt_of_not_le wraps }

namespace Tcp

/-- The end of `buf_send`: the lost record, if it fits. -/
def writeLost (client : Sender) : Sender :=
  if fits : 0 < client.lost ∧ lostLen < client.ring.space then
    { client with
      ring := bufWrite (lostRecord client.lost) client.ring
        (Nat.le_of_lt (lostRecord_length client.lost ▸ fits.2))
      lost := 0
      log := client.log ++ [.lost client.lost] }
  else client

/-- The second part of `buf_send`; the flag says that `send` failed. -/
def sendRest (result : SendResult) (len : Nat) (client : Sender) :
    Sender × Bool :=
  if len = 0 then (writeLost client, false)
  else
    match result.taken len with
    | none => (client, true)
    | some amount => (writeLost (client.sent amount), false)

def bufSend (first second : SendResult) (client : Sender) : Sender × Bool :=
  if bufLen ≤ client.ring.tail + client.ring.count then
    match first.taken (bufLen - client.ring.tail) with
    | none => (client, true)
    | some amount =>
      if amount = bufLen - client.ring.tail then
        sendRest second (client.ring.count - amount) (client.sent amount)
      else (client.sent amount, false)
  else sendRest first client.ring.count client

def makeRoom (record : Record) (first second : SendResult) (client : Sender) :
    Sender :=
  if client.ring.space < record.bytes.length then
    (bufSend first second client).1
  else client

def enqueue (record : Record) (client : Sender) : Sender :=
  if fits : record.bytes.length ≤ client.ring.space then
    { client with
      ring := bufWrite record.bytes client.ring fits
      armed := client.armed || client.ring.count = 0
      log := client.log ++ [.queued record] }
  else client.drop record

def tcpSend (record : Record) (first second : SendResult) (client : Sender) :
    Sender :=
  enqueue record (makeRoom record first second client)

/-- `EPOLLOUT` in `handle_inout`. -/
def handleOut (first second : SendResult) (client : Sender) : Sender :=
  if (bufSend first second client).2 then (bufSend first second client).1
  else if (bufSend first second client).1.ring.count = 0 then
    { (bufSend first second client).1 with armed := false }
  else (bufSend first second client).1

inductive Action where
  | broadcast (record : Record) (first second : SendResult)
  | writable (first second : SendResult)

def Action.record? : Action → Option Record
  | broadcast record _ _ => some record
  | writable _ _ => none

def step (client : Sender) : Action → Sender
  | .broadcast record first second => tcpSend record first second client
  | .writable first second => handleOut first second client

def run (actions : List Action) : Sender := actions.foldl step .init

end Tcp

def countToEnd (ring : Ring) : Nat :=
  let count := (ring.head + (bufLen - ring.tail)) % bufLen
  if count < bufLen - ring.tail then count else bufLen - ring.tail

def spaceToEnd (ring : Ring) : Nat :=
  let last := bufLen - 1 - ring.head
  let space := (last + ring.tail) % bufLen
  if space ≤ last then space else last + 1

/-- The copy into the buffer in `block_broadcast`. -/
def circWrite (bytes : Bytes) (ring : Ring) : Ring :=
  let cut := min bytes.length (spaceToEnd ring)
  { ring with
    cells := blit 0 (bytes.drop cut) (blit ring.head (bytes.take cut) ring.cells)
    head := (ring.head + bytes.length) % bufLen
    head_lt := Nat.mod_lt _ (by decide) }

namespace Cdev

/-- `block_broadcast` of the lost record, and `lost = 0`.  It is made when at
least that many bytes have just been written, so there is room for it. -/
def broadcastLost (cdev : Sender) : Sender :=
  if lostLen ≤ cdev.ring.space then
    { cdev with
      ring := circWrite (lostRecord cdev.lost) cdev.ring
      lost := 0
      armed := cdev.armed || cdev.ring.count = 0
      log := cdev.log ++ [.lost cdev.lost] }
  else { cdev with lost := 0 }

/-- `EPOLLOUT` in `handle_cdev_event`, with what the writes return; when there
are no more results a write would block. -/
def handleOut (writes : List SendResult) (cdev : Sender) : Sender :=
  if countToEnd cdev.ring = 0 then { cdev with armed := false }
  else
    match writes with
    | [] => cdev
    | result :: rest =>
      match result.taken (countToEnd cdev.ring) with
      | none => cdev
      | some amount =>
        handleOut rest (if 0 < cdev.lost ∧ lostLen ≤ amount then
            broadcastLost (cdev.sent amount)
          else cdev.sent amount)

def makeRoom (record : Record) (writes : List SendResult) (cdev : Sender) :
    Sender :=
  if cdev.ring.space < record.bytes.length then handleOut writes cdev else cdev

def enqueue (record : Record) (cdev : Sender) : Sender :=
  if record.bytes.length ≤ cdev.ring.space then
    { cdev with
      ring := circWrite record.bytes cdev.ring
      armed := cdev.armed || cdev.ring.count = 0
      log := cdev.log ++ [.queued record] }
  else cdev.drop record

def blockBroadcast (record : Record) (writes : List SendResult)
    (cdev : Sender) : Sender :=
  enqueue record (makeRoom record writes cdev)

inductive Action where
  | broadcast (record : Record) (writes : List SendResult)
  | writable (writes : List SendResult)

def step (cdev : Sender) : Action → Sender
  | .broadcast record writes => blockBroadcast record writes cdev
  | .writable writes => handleOut writes cdev

def run (actions : List Action) : Sender := actions.foldl step .init

end Cdev

end PerfProf.Spread
