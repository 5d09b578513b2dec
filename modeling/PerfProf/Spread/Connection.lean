import PerfProf.Spread.Framing
import PerfProf.Spread.Wire

namespace PerfProf.Spread

open PerfProf.Data

private theorem lostRecord_contained (receiver : Receiver) (lost : Nat) :
    Contained receiver (lostRecord lost) := by
  have hsplit : lostRecord lost =
      (encode 4 2 ++ encode 2 0 ++ encode 2 lostLen) ++
        (encode 8 0 ++ encode 8 lost) := by
    rw [lostRecord, ← List.append_assoc]
  have htype : headerType (lostRecord lost) = 2 := by
    rw [hsplit, headerType_append (by decide)]
    decide
  refine ⟨⟨?_, by rw [lostRecord_length]; decide⟩, ?_, ?_⟩
  · rw [lostRecord_length, hsplit, headerSize_append (by decide)]
    decide
  · rw [htype]
    exact fun absurd => (by decide : 2 ≠ perfRecordTp) absurd |>.elim
  · rw [htype]
    exact fun absurd => (by decide : 2 ≠ perfRecordSample) absurd |>.elim

private theorem Sound.frames_contained (sound : Sound sender records)
    (contained : ∀ record ∈ records, Contained receiver record.bytes) :
    ∀ frame ∈ sender.log.filterMap frame?, Contained receiver frame := by
  intro frame member
  obtain ⟨note, hnote, hframe⟩ := List.mem_filterMap.mp member
  cases note with
  | queued record =>
    cases hframe
    apply contained
    rw [← sound.items]
    exact List.mem_filterMap.mpr ⟨_, hnote, rfl⟩
  | dropped record => cases hframe
  | lost count =>
    cases hframe
    exact lostRecord_contained receiver count

/-- Once a client's buffer is empty and its peer has read everything, in
whatever pieces, the peer has handed on what is to be handed on of exactly the
queued and the lost records in their order, and every broadcast is among them,
counted in them or still to be counted. -/
theorem tcp_connection_accounts (receiver : Receiver)
    (actions : List Tcp.Action)
    (contained : ∀ record ∈ actions.filterMap Tcp.Action.record?,
      Contained receiver record.bytes)
    (drained : (Tcp.run actions).ring.contents = []) {buf : Bytes}
    (room : bufLen ≤ buf.length) (wants : List Nat) (shut : Bool)
    (calls : Nat) :
    ∃ last, (Scan.init buf ⟨(Tcp.run actions).wire, wants, shut⟩).receiveAll
        .tcp receiver calls = some last ∧
      last.block.handed <+:
        handedOn receiver 0 ((Tcp.run actions).log.filterMap frame?) ∧
      (last.source.wire = [] →
        last.block.handed =
          handedOn receiver 0 ((Tcp.run actions).log.filterMap frame?)) ∧
      (Tcp.run actions).log.filterMap Note.item? =
        actions.filterMap Tcp.Action.record? ∧
      ((Tcp.run actions).log.filter Note.isDropped).length =
        ((Tcp.run actions).log.map Note.announced).sum +
          (Tcp.run actions).lost := by
  have sound := (Tcp.run_spec actions).1
  have hframes := sound.frames_contained contained
  have hwire : (Tcp.run actions).wire =
      ((Tcp.run actions).log.filterMap frame?).flatten := by
    rw [← List.append_nil (Tcp.run actions).wire, ← drained]
    exact sound.stream
  have hstart : Scan.Settled receiver ((Tcp.run actions).log.filterMap frame?)
      (Scan.init buf ⟨(Tcp.run actions).wire, wants, shut⟩) :=
    Scan.Settled.start hframes room hwire
  obtain ⟨last, hlast, settled⟩ := hstart.receiveAll hframes calls
  refine ⟨last, hlast, settled.handed_prefix,
    fun hread => settled.finished (.inl hread), sound.items, ?_⟩
  rw [sound.lost]
  exact dropped_balance sound.settled

def oneBroadcast : List Tcp.Action :=
  [.broadcast ⟨[9, 0, 0, 0, 0, 0, 9, 0, 1], by decide⟩ .again .again,
    .writable (.sent 9) .again]

private theorem oneBroadcast_contained :
    ∀ record ∈ oneBroadcast.filterMap Tcp.Action.record?,
      Contained (plainReceiver true) record.bytes := by
  intro record member
  refine twoRecords_contained _ ?_
  simp_all [oneBroadcast, twoRecords, Tcp.Action.record?]

theorem tcp_connection_accounts_one :
    (Tcp.run oneBroadcast).ring.contents = [] ∧
    ∃ last,
      (Scan.init fresh ⟨(Tcp.run oneBroadcast).wire, [5, 4], false⟩).receiveAll
        .tcp (plainReceiver true) 1 = some last ∧
      last.block.handed = [⟨0, [9, 0, 0, 0, 0, 0, 9, 0, 1]⟩] := by
  have hdrained : (Tcp.run oneBroadcast).ring.contents = [] := by decide +kernel
  have hread : ((Scan.init fresh
      ⟨(Tcp.run oneBroadcast).wire, [5, 4], false⟩).receiveAll .tcp
      (plainReceiver true) 1).map (·.source.wire) = some [] := by
    decide +kernel
  have hhanded : handedOn (plainReceiver true) 0
      ((Tcp.run oneBroadcast).log.filterMap frame?) =
        [⟨0, [9, 0, 0, 0, 0, 0, 9, 0, 1]⟩] := by
    decide +kernel
  obtain ⟨last, hlast, -, hall, -⟩ := tcp_connection_accounts (plainReceiver true)
    oneBroadcast oneBroadcast_contained hdrained fresh_room [5, 4] false 1
  rw [hlast] at hread
  exact ⟨hdrained, last, hlast, (hall (Option.some.inj hread)).trans hhanded⟩

end PerfProf.Spread
