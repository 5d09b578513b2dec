import PerfProf.Spread.Wire

namespace PerfProf.Spread

open PerfProf.Data

private theorem located_unqueued {note : Note Record}
    (hnote : note.queued? = none) (log : List (Note Record)) :
    Located (log ++ [note]) ↔ Located log := by
  rw [located_snoc, hnote]
  exact ⟨And.left, fun located => ⟨located, fun absurd => (nomatch absurd)⟩⟩

private theorem Sound.located_queued (sound : Sound sender records)
    (record : Record) :
    Located (sender.log ++ [.queued record]) ↔
      Located sender.log ∧ sender.lost = 0 := by
  rw [located_snoc, sound.lost]
  exact and_congr_right fun _ => ⟨fun clear => clear rfl, fun clear _ => clear⟩

private theorem clear_iff {late : Prop} {size space lost : Nat}
    (hroom : ¬ space < size) :
    (size ≤ space → lost = 0) ↔ ¬ (0 < lost ∧ (space < size → late)) := by
  constructor
  · intro clear overtakes
    have hnone := clear (by omega)
    omega
  · intro kept fits
    by_contra hsome
    exact kept ⟨by omega, fun hfull => absurd hfull hroom⟩

namespace Tcp

/-- A loss is still to be announced and the record is queued nevertheless: it
fits, or `buf_send` makes room for it without queueing the lost record. -/
def Overtakes (client : Sender) : Action → Prop
  | .broadcast record first second =>
    0 < client.lost ∧ (client.ring.space < record.bytes.length → record.bytes.length ≤
          client.ring.space + flushed first second client ∧
        ¬ (finishes first second client = true ∧
          lostLen < client.ring.space + flushed first second client))
  | .writable _ _ => False

variable {client : Sender}

private theorem writeLost_located (client : Sender) :
    Located (writeLost client).log ↔ Located client.log := by
  unfold writeLost
  split
  · exact located_unqueued rfl _
  · exact Iff.rfl

private theorem bufSend_located (first second : SendResult) (client : Sender) :
    Located (bufSend first second client).1.log ↔ Located client.log := by
  obtain ⟨middle, htaken, _, hresult⟩ := bufSend_spec first second client
  rw [hresult, ← htaken.log]
  split
  · exact writeLost_located middle
  · exact Iff.rfl

private theorem bufSend_lost (first second : SendResult) (client : Sender) :
    (finishes first second client = true ∧
        lostLen < client.ring.space + flushed first second client →
      (bufSend first second client).1.lost = 0) ∧
    (¬ (finishes first second client = true ∧
        lostLen < client.ring.space + flushed first second client) →
      (bufSend first second client).1.lost = client.lost ∧
        (bufSend first second client).1.ring.space =
          client.ring.space + flushed first second client) := by
  obtain ⟨middle, htaken, _, hresult⟩ := bufSend_spec first second client
  have hspace := htaken.space
  have hlost := htaken.lost
  rw [hresult, ← hspace]
  constructor
  · rintro ⟨hfinishes, room⟩
    rw [if_pos hfinishes, writeLost_lost, if_pos room]
  · intro hstays
    split_ifs with hfinishes
    · have full : ¬ lostLen < middle.ring.space := fun room => hstays ⟨hfinishes, room⟩
      have hsame : writeLost middle = middle := by
        unfold writeLost
        rw [dif_neg fun fits => full fits.2]
      rw [hsame]
      exact ⟨hlost, rfl⟩
    · exact ⟨hlost, rfl⟩

private theorem enqueue_located (sound : Sound client records)
    (record : Record) :
    Located (enqueue record client).log ↔
      Located client.log ∧
      (record.bytes.length ≤ client.ring.space → client.lost = 0) := by
  unfold enqueue
  split
  · rename_i fits
    refine (sound.located_queued record).trans (and_congr_right fun _ => ?_)
    exact ⟨fun clear _ => clear, fun clear => clear fits⟩
  · rename_i full
    refine (located_unqueued rfl _).trans ?_
    exact ⟨fun located => ⟨located, fun fits => absurd fits full⟩, And.left⟩

private theorem tcpSend_located (sound : Sound client records) (record : Record)
    (first second : SendResult) :
    Located (tcpSend record first second client).log ↔
      Located client.log ∧
      ¬ Overtakes client (.broadcast record first second) := by
  obtain ⟨hannounced, hstays⟩ := bufSend_lost first second client
  unfold tcpSend makeRoom Overtakes
  split
  · rename_i hfull
    rw [enqueue_located (bufSend_sound sound first second), bufSend_located]
    refine and_congr_right fun _ => ?_
    by_cases hlate : finishes first second client = true ∧
        lostLen < client.ring.space + flushed first second client
    · exact ⟨fun _ hovertakes => (hovertakes.2 hfull).2 hlate, fun _ _ => hannounced hlate⟩
    · obtain ⟨hlost, hspace⟩ := hstays hlate
      rw [hlost, hspace]
      constructor
      · intro clear hovertakes
        have hnone := clear (hovertakes.2 hfull).1
        omega
      · intro kept fits
        by_contra hsome
        exact kept ⟨by omega, fun _ => ⟨fits, hlate⟩⟩
  · rename_i hroom
    rw [enqueue_located sound]
    exact and_congr_right fun _ => clear_iff hroom

private theorem handleOut_located (first second : SendResult)
    (client : Sender) :
    Located (handleOut first second client).log ↔ Located client.log := by
  have hflush := bufSend_located first second client
  unfold handleOut
  split
  · exact hflush
  · split <;> exact hflush

private theorem tcpSend_fits (first second : SendResult)
    (fits : record.bytes.length ≤ client.ring.space) :
    (tcpSend record first second client).ring.count =
      client.ring.count + record.bytes.length := by
  have hroom : makeRoom record first second client = client := if_neg (Nat.not_lt_of_le fits)
  rw [tcpSend, hroom, enqueue, dif_pos fits]
  exact (bufWrite_pushed fits).count

private theorem tcpSend_again (full : client.ring.space < record.bytes.length) :
    tcpSend record .again .again client = client.drop record := by
  have hspace := client.ring.count_add_space
  have hshort := record.short
  have hsome : client.ring.count ≠ 0 := by omega
  have hagain : bufSend .again .again client = (client, true) := by
    rw [bufSend, sendRest, if_neg hsome]
    split <;> rfl
  have hroom : makeRoom record .again .again client = client := by
    rw [makeRoom, if_pos full, hagain]
  rw [tcpSend, hroom, enqueue, dif_neg (Nat.not_le_of_lt full)]

private theorem located_iff (actions : List Action) :
    Located (run actions).log ↔
      ∀ before action after, actions = before ++ action :: after →
        ¬ Overtakes (run before) action := by
  refine (@located_foldl Record Sender Action Sender.log step Overtakes
    (fun client => ∃ records, Sound client records ∧ Armed client) ?_ .init
    ⟨[], run_spec []⟩ actions).trans ⟨And.right, fun hall => ⟨located_nil, hall⟩⟩
  rintro client action ⟨records, sound, harmed⟩
  cases action with
  | broadcast record first second =>
    exact ⟨⟨_, tcpSend_spec sound harmed record first second⟩,
      tcpSend_located sound record first second⟩
  | writable first second =>
    refine ⟨⟨_, handleOut_spec sound harmed first second⟩, ?_⟩
    refine (handleOut_located first second client).trans ?_
    exact ⟨fun located => ⟨located, not_false⟩, And.left⟩

private theorem not_located_of_small
    (hfull : bufLen ≤ large.bytes.length + medium.bytes.length)
    (hfits : large.bytes.length + small.bytes.length < bufLen) :
    ¬ Located (run [.broadcast large .again .again,
      .broadcast medium .again .again,
      .broadcast small .again .again]).log := by
  have hempty : Sender.init.ring.count = 0 := rfl
  have hinit := Sender.init.ring.count_add_space
  have hcount := @tcpSend_fits Sender.init large .again .again (by omega)
  have hspace := (tcpSend large .again .again .init).ring.count_add_space
  have hdropped := @tcpSend_again (tcpSend large .again .again .init) medium (by omega)
  rw [located_iff]
  intro kept
  refine kept [.broadcast large .again .again, .broadcast medium .again .again] _ [] rfl ?_
  change Overtakes (tcpSend medium .again .again (tcpSend large .again .again .init)) _
  rw [hdropped]
  refine ⟨Nat.succ_pos _, fun hlong => ?_⟩
  change (tcpSend large .again .again .init).ring.space < _ at hlong
  omega

end Tcp

namespace Cdev

/-- What writes get rid of when none of them is as large as a lost record; one
that is lets the lost record be queued. -/
def trickle : List SendResult → Nat → Nat → Option Nat
  | [], _, _ => some 0
  | result :: rest, count, tail =>
    if count = 0 then some 0
    else
      match result.taken (min count (bufLen - tail)) with
      | none => some 0
      | some amount =>
        if lostLen ≤ amount then none
        else (trickle rest (count - amount) ((tail + amount) % bufLen)).map (amount + ·)

/-- A loss is still to be announced and the record is queued nevertheless: it
fits, or small writes make room for it. -/
def Overtakes (cdev : Sender) : Action → Prop
  | .broadcast record writes =>
    0 < cdev.lost ∧ (cdev.ring.space < record.bytes.length →
      ∃ amount, trickle writes cdev.ring.count cdev.ring.tail = some amount ∧
        record.bytes.length ≤ cdev.ring.space + amount)
  | .writable _ => False

variable {cdev : Sender} {records : List Record}

private theorem handleOut_cons (result : SendResult) (rest : List SendResult)
    (buffered : cdev.ring.count ≠ 0) :
    handleOut (result :: rest) cdev =
      match result.taken (min cdev.ring.count (bufLen - cdev.ring.tail)) with
      | none => cdev
      | some amount =>
        handleOut rest (if 0 < cdev.lost ∧ lostLen ≤ amount then
          broadcastLost (cdev.sent amount) else cdev.sent amount) := by
  have htail := cdev.ring.tail_lt
  have hsome : ¬ min cdev.ring.count (bufLen - cdev.ring.tail) = 0 := by omega
  rw [handleOut, countToEnd_eq]
  refine (if_neg hsome).trans ?_
  cases result.taken (min cdev.ring.count (bufLen - cdev.ring.tail)) with
  | none => rfl
  | some amount => rfl

private theorem handleOut_empty (writes : List SendResult)
    (hempty : cdev.ring.count = 0) :
    handleOut writes cdev = { cdev with armed := false } := by
  rw [handleOut.eq_def, if_pos]
  rw [countToEnd_eq, hempty, Nat.zero_min]

private theorem taken_of_write {result : SendResult} {amount : Nat}
    (buffered : cdev.ring.count ≠ 0)
    (htaken : result.taken (min cdev.ring.count (bufLen - cdev.ring.tail)) =
      some amount) :
    Taken amount cdev (cdev.sent amount) := by
  have htail := cdev.ring.tail_lt
  obtain ⟨_, hinside⟩ := SendResult.taken_le (by omega) htaken
  exact sent_taken (by omega) (by omega)

private theorem broadcastLost_eq
    (htaken : Taken amount cdev (cdev.sent amount))
    (large : lostLen ≤ amount) :
    Circ.Pushed (lostRecord (cdev.sent amount).lost) (cdev.sent amount).ring
        (circWrite (lostRecord (cdev.sent amount).lost)
          (cdev.sent amount).ring) ∧
      broadcastLost (cdev.sent amount) = { cdev.sent amount with
        ring := circWrite (lostRecord (cdev.sent amount).lost)
          (cdev.sent amount).ring
        lost := 0
        armed :=
          (cdev.sent amount).armed || (cdev.sent amount).ring.count = 0
        log :=
          (cdev.sent amount).log ++ [.lost (cdev.sent amount).lost] } := by
  have hroom : lostLen ≤ (cdev.sent amount).ring.space := by
    rw [htaken.space]
    exact large.trans (Nat.le_add_left _ _)
  refine ⟨circWrite_pushed ?_, ?_⟩
  · rw [lostRecord_length]
    exact hroom
  · rw [broadcastLost, if_pos hroom]

section

variable (sound : Sound cdev records)

include sound

private theorem handleOut_spec (writes : List SendResult) :
    Sound (handleOut writes cdev) records ∧
    (Located (handleOut writes cdev).log ↔ Located cdev.log) ∧
    (cdev.lost = 0 → (handleOut writes cdev).lost = 0) := by
  induction writes generalizing cdev with
  | nil =>
    unfold handleOut
    split
    · exact ⟨⟨sound.stream, sound.items, sound.lost, sound.settled⟩, Iff.rfl, id⟩
    · exact ⟨sound, Iff.rfl, id⟩
  | cons result rest ih =>
    by_cases hempty : cdev.ring.count = 0
    · rw [handleOut_empty _ hempty]
      exact ⟨⟨sound.stream, sound.items, sound.lost, sound.settled⟩, Iff.rfl, id⟩
    · rw [handleOut_cons result rest hempty]
      split
      · exact ⟨sound, Iff.rfl, id⟩
      · rename_i amount hresult
        have htaken := taken_of_write hempty hresult
        split_ifs with large
        · obtain ⟨hpushed, hbroadcast⟩ := broadcastLost_eq htaken large.2
          have hsound := (sound.taken htaken).announce hpushed
            ((cdev.sent amount).armed || (cdev.sent amount).ring.count = 0)
          rw [← hbroadcast] at hsound
          obtain ⟨hlast, hlocated, hlost⟩ := ih hsound
          refine ⟨hlast, hlocated.trans ?_, fun clear => ?_⟩
          · rw [hbroadcast]
            exact located_unqueued rfl _
          · omega
        · obtain ⟨hlast, hlocated, hlost⟩ := ih (sound.taken htaken)
          exact ⟨hlast, hlocated, hlost⟩

private theorem handleOut_trickle (behind : 0 < cdev.lost)
    (writes : List SendResult) :
    match trickle writes cdev.ring.count cdev.ring.tail with
    | none => (handleOut writes cdev).lost = 0
    | some amount => (handleOut writes cdev).lost = cdev.lost ∧
        (handleOut writes cdev).ring.space = cdev.ring.space + amount := by
  induction writes generalizing cdev with
  | nil =>
    rw [trickle, handleOut]
    by_cases hempty : countToEnd cdev.ring = 0
    · rw [if_pos hempty]
      exact ⟨rfl, (Nat.add_zero _).symm⟩
    · rw [if_neg hempty]
      exact ⟨rfl, (Nat.add_zero _).symm⟩
  | cons result rest ih =>
    unfold trickle
    by_cases hempty : cdev.ring.count = 0
    · rw [handleOut_empty _ hempty, if_pos hempty]
      exact ⟨rfl, (Nat.add_zero _).symm⟩
    · rw [handleOut_cons result rest hempty, if_neg hempty]
      cases hresult : result.taken (min cdev.ring.count (bufLen - cdev.ring.tail)) with
      | none => exact ⟨rfl, (Nat.add_zero _).symm⟩
      | some amount =>
        have htaken := taken_of_write hempty hresult
        dsimp only
        by_cases large : lostLen ≤ amount
        · rw [if_pos large, if_pos ⟨behind, large⟩]
          obtain ⟨hpushed, hbroadcast⟩ := broadcastLost_eq htaken large
          have hsound := (sound.taken htaken).announce hpushed
            ((cdev.sent amount).armed || (cdev.sent amount).ring.count = 0)
          rw [← hbroadcast] at hsound
          refine (handleOut_spec hsound rest).2.2 ?_
          rw [hbroadcast]
        · rw [if_neg large, if_neg fun both => large both.2]
          have hnext := ih (sound.taken htaken) (htaken.lost.symm ▸ behind)
          rw [htaken.count] at hnext
          have htail : (cdev.sent amount).ring.tail = (cdev.ring.tail + amount) % bufLen := rfl
          rw [htail] at hnext
          cases htrickle : trickle rest (cdev.ring.count - amount)
              ((cdev.ring.tail + amount) % bufLen) with
          | none =>
            rw [htrickle] at hnext
            exact hnext
          | some more =>
            rw [htrickle] at hnext
            rw [Option.map_some]
            dsimp only at hnext ⊢
            rw [hnext.2, htaken.space, Nat.add_assoc]
            exact ⟨hnext.1.trans htaken.lost, rfl⟩

private theorem enqueue_spec (record : Record) :
    Sound (enqueue record cdev) (records ++ [record]) ∧
    (Located (enqueue record cdev).log ↔
        Located cdev.log ∧
        (record.bytes.length ≤ cdev.ring.space → cdev.lost = 0)) := by
  unfold enqueue
  split
  · rename_i fits
    refine ⟨sound.queue (circWrite_pushed fits) _, ?_⟩
    refine (sound.located_queued record).trans (and_congr_right fun _ => ?_)
    exact ⟨fun clear _ => clear, fun clear => clear fits⟩
  · rename_i full
    refine ⟨sound.drop record, (located_unqueued rfl _).trans ?_⟩
    exact ⟨fun located => ⟨located, fun fits => absurd fits full⟩, And.left⟩

private theorem blockBroadcast_sound (record : Record)
    (writes : List SendResult) :
    Sound (blockBroadcast record writes cdev) (records ++ [record]) := by
  unfold blockBroadcast makeRoom
  split
  · exact (enqueue_spec (handleOut_spec sound writes).1 record).1
  · exact (enqueue_spec sound record).1

private theorem blockBroadcast_located (record : Record)
    (writes : List SendResult) :
    Located (blockBroadcast record writes cdev).log ↔
      Located cdev.log ∧ ¬ Overtakes cdev (.broadcast record writes) := by
  obtain ⟨hsound, hflush, hnone⟩ := handleOut_spec sound writes
  unfold blockBroadcast makeRoom Overtakes
  split
  · rename_i hfull
    rw [(enqueue_spec hsound record).2, hflush]
    refine and_congr_right fun _ => ?_
    by_cases behind : 0 < cdev.lost
    · have htrickle := handleOut_trickle sound behind writes
      cases hamount : trickle writes cdev.ring.count cdev.ring.tail with
      | none =>
        rw [hamount] at htrickle
        refine ⟨fun _ hovertakes => ?_, fun _ _ => htrickle⟩
        obtain ⟨_, hsome, _⟩ := hovertakes.2 hfull
        cases hamount.symm.trans hsome
      | some amount =>
        rw [hamount] at htrickle
        rw [htrickle.1, htrickle.2]
        constructor
        · intro clear hovertakes
          obtain ⟨_, hsame, fits⟩ := hovertakes.2 hfull
          cases hamount.symm.trans hsame
          have hzero := clear fits
          omega
        · intro kept fits
          exact absurd ⟨behind, fun _ => ⟨amount, hamount, fits⟩⟩ kept
    · exact ⟨fun _ hovertakes => behind hovertakes.1, fun _ _ => hnone (by omega)⟩
  · rename_i hroom
    rw [(enqueue_spec sound record).2]
    exact and_congr_right fun _ => clear_iff hroom

end

private theorem step_sound (sound : ∃ records, Sound cdev records)
    (action : Action) : ∃ records, Sound (step cdev action) records := by
  obtain ⟨records, sound⟩ := sound
  cases action with
  | broadcast record writes => exact ⟨_, blockBroadcast_sound sound record writes⟩
  | writable writes => exact ⟨_, (handleOut_spec sound writes).1⟩

private theorem located_iff (actions : List Action) :
    Located (run actions).log ↔
      ∀ before action after, actions = before ++ action :: after →
        ¬ Overtakes (run before) action := by
  refine (@located_foldl Record Sender Action Sender.log step Overtakes
    (fun cdev => ∃ records, Sound cdev records) ?_ .init
    ⟨[], Sound.init⟩ actions).trans ⟨And.right, fun hall => ⟨located_nil, hall⟩⟩
  intro cdev action sound
  refine ⟨step_sound sound action, ?_⟩
  obtain ⟨records, sound⟩ := sound
  cases action with
  | broadcast record writes => exact blockBroadcast_located sound record writes
  | writable writes =>
    refine (handleOut_spec sound writes).2.1.trans ?_
    exact ⟨fun located => ⟨located, not_false⟩, And.left⟩

private theorem run_sound (actions : List Action) :
    ∃ records, Sound (run actions) records :=
  List.foldlRecOn (motive := fun cdev => ∃ records, Sound cdev records) actions step
    ⟨[], Sound.init⟩ fun _ sound action _ => step_sound sound action

private theorem blockBroadcast_fits (writes : List SendResult)
    (fits : record.bytes.length ≤ cdev.ring.space) :
    (blockBroadcast record writes cdev).ring.count =
      cdev.ring.count + record.bytes.length := by
  have hroom : makeRoom record writes cdev = cdev := if_neg (Nat.not_lt_of_le fits)
  rw [blockBroadcast, hroom, enqueue, if_pos fits]
  exact (circWrite_pushed fits).count

private theorem blockBroadcast_again
    (full : cdev.ring.space < record.bytes.length) :
    blockBroadcast record [] cdev = cdev.drop record := by
  have hspace := cdev.ring.count_add_space
  have hshort := record.short
  have htail := cdev.ring.tail_lt
  have hagain : handleOut [] cdev = cdev := by
    rw [handleOut, if_neg]
    rw [countToEnd_eq]
    omega
  have hroom : makeRoom record [] cdev = cdev := by rw [makeRoom, if_pos full, hagain]
  rw [blockBroadcast, hroom, enqueue, if_neg (Nat.not_le_of_lt full)]

private theorem not_located_of_small
    (hfull : bufLen ≤ large.bytes.length + medium.bytes.length)
    (hfits : large.bytes.length + small.bytes.length < bufLen) :
    ¬ Located (run [.broadcast large [], .broadcast medium [],
      .broadcast small []]).log := by
  have hempty : Sender.init.ring.count = 0 := rfl
  have hinit := Sender.init.ring.count_add_space
  have hcount := @blockBroadcast_fits Sender.init large [] (by omega)
  have hspace := (blockBroadcast large [] .init).ring.count_add_space
  have hdropped := @blockBroadcast_again (blockBroadcast large [] .init) medium (by omega)
  rw [located_iff]
  intro kept
  refine kept [.broadcast large [], .broadcast medium []] _ [] rfl ?_
  change Overtakes (blockBroadcast medium [] (blockBroadcast large [] .init)) _
  rw [hdropped]
  refine ⟨Nat.succ_pos _, fun hlong => ?_⟩
  change (blockBroadcast large [] .init).ring.space < _ at hlong
  omega

end Cdev

/-- For both senders and every sequence of broadcasts and send results: what is
sent is a first part of the stream of the queued and lost records, and in it the
lost record of every dropped record comes before every record broadcast later,
if and only if no record overtakes a loss that is still to be announced. -/
theorem gaps_located_iff (sends : List Tcp.Action) (writes : List Cdev.Action) :
    ((Tcp.run sends).wire <+: stream (Tcp.run sends).log ∧
      (Located (Tcp.run sends).log ↔
          ∀ before action after, sends = before ++ action :: after →
            ¬ Tcp.Overtakes (Tcp.run before) action)) ∧
    (Cdev.run writes).wire <+: stream (Cdev.run writes).log ∧
    (Located (Cdev.run writes).log ↔
        ∀ before action after, writes = before ++ action :: after →
          ¬ Cdev.Overtakes (Cdev.run before) action) := by
  refine ⟨⟨⟨_, (Tcp.run_spec sends).1.stream⟩, Tcp.located_iff sends⟩, ?_, Cdev.located_iff writes⟩
  obtain ⟨records, sound⟩ := Cdev.run_sound writes
  exact ⟨_, sound.stream⟩

def zeroRecord (length : Nat) (short : length < bufLen) : Record :=
  ⟨List.replicate length 0, by rwa [List.length_replicate]⟩

def large : Record := zeroRecord 65000 (by decide)
def medium : Record := zeroRecord 600 (by decide)
def small : Record := zeroRecord 100 (by decide)

/-- The buffer takes 65000 bytes, a record of 600 bytes is dropped, and one of
100 bytes still fits: it goes in front of the lost record. -/
theorem small_record_overtakes_loss :
    ¬ Located (Tcp.run [.broadcast large .again .again,
      .broadcast medium .again .again, .broadcast small .again .again]).log ∧
    ¬ Located (Cdev.run [.broadcast large [], .broadcast medium [],
      .broadcast small []]).log := by
  have hlarge : large.bytes.length = 65000 := List.length_replicate
  have hmedium : medium.bytes.length = 600 := List.length_replicate
  have hsmall : small.bytes.length = 100 := List.length_replicate
  have hbuf : bufLen = 65536 := rfl
  exact ⟨Tcp.not_located_of_small (by omega) (by omega),
    Cdev.not_located_of_small (by omega) (by omega)⟩

end PerfProf.Spread
