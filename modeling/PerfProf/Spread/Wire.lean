import Mathlib.Algebra.Order.Group.Nat
import PerfProf.Spread.Sender

namespace PerfProf.Spread

open PerfProf.Data

theorem blit_nil {α : Type} (start : Nat) (cells : Nat → α) :
    blit start [] cells = cells := by
  funext cell
  unfold blit
  split <;> rfl

theorem bufWrite_pushed (fits : bytes.length ≤ ring.space) :
    Circ.Pushed bytes ring (bufWrite bytes ring fits) := by
  have hspace := ring.count_add_space
  have hhead := ring.head_lt
  unfold bufWrite
  split_ifs with straight
  · refine ⟨fits, ?_, rfl, fun cell hcell => ?_⟩
    · rw [mod_of_lt_twice (by omega), if_neg (by omega)]
      dsimp only
      omega
    · exact Circ.blit_wrapped hhead (by omega) (.inl rfl) hcell
  · refine ⟨fits, (Nat.mod_eq_of_lt (Nat.lt_of_not_le straight)).symm, rfl, fun cell hcell => ?_⟩
    have hcopy : blit 0 (bytes.drop bytes.length) (blit ring.head (bytes.take bytes.length)
        ring.cells) cell = _ := Circ.blit_wrapped hhead (by omega) (.inr ⟨le_rfl, by omega⟩) hcell
    rwa [List.drop_length, blit_nil, List.take_length] at hcopy

theorem circWrite_pushed (fits : bytes.length ≤ ring.space) :
    Circ.Pushed bytes ring (circWrite bytes ring) := by
  have hspace := ring.count_add_space
  have hhead := ring.head_lt
  have htail := ring.tail_lt
  have hcount := ring.count_eq
  refine ⟨fits, rfl, rfl, fun cell hcell => ?_⟩
  apply Circ.blit_wrapped hhead (by omega) ?_ hcell
  unfold spaceToEnd
  dsimp only
  rw [mod_of_lt_twice (by omega)]
  split at hcount <;> split <;> split <;> omega

theorem countToEnd_eq (ring : Ring) :
    countToEnd ring = min ring.count (bufLen - ring.tail) := by
  have htail := ring.tail_lt
  have hcount : (ring.head + (bufLen - ring.tail)) % bufLen = ring.count := by
    rw [Circ.count, Nat.add_sub_assoc htail.le]
  unfold countToEnd
  rw [hcount]
  dsimp only
  split <;> omega

structure Taken (amount : Nat) (before after : Sender) : Prop where
  inside : amount ≤ before.ring.count
  wire : after.wire = before.wire ++ before.ring.contents.take amount
  contents : after.ring.contents = before.ring.contents.drop amount
  lost : after.lost = before.lost
  armed : after.armed = before.armed
  log : after.log = before.log

namespace Taken

variable {amount more : Nat} {before middle after : Sender}

theorem count (taken : Taken amount before after) :
    after.ring.count = before.ring.count - amount := by
  have hlength := congrArg List.length taken.contents
  rwa [List.length_drop, Circ.contents_length, Circ.contents_length] at hlength

theorem space (taken : Taken amount before after) :
    after.ring.space = before.ring.space + amount := by
  have hcount := taken.count
  have hinside := taken.inside
  have hbefore := before.ring.count_add_space
  have hafter := after.ring.count_add_space
  omega

theorem refl (sender : Sender) : Taken 0 sender sender :=
  ⟨Nat.zero_le _, by rw [List.take_zero, List.append_nil], rfl, rfl, rfl, rfl⟩

theorem trans (first : Taken amount before middle)
    (second : Taken more middle after) :
    Taken (amount + more) before after := by
  have hinside := second.inside
  have hcount := first.count
  have hfirst := first.inside
  refine ⟨by omega, ?_, ?_, second.lost.trans first.lost,
    second.armed.trans first.armed, second.log.trans first.log⟩
  · rw [second.wire, first.wire, first.contents, List.append_assoc, List.take_add]
  · rw [second.contents, first.contents, List.drop_drop]

end Taken

theorem sent_taken (inside : amount ≤ sender.ring.count)
    (straight : sender.ring.tail + amount ≤ bufLen) :
    Taken amount sender (sender.sent amount) :=
  ⟨inside, congrArg (sender.wire ++ ·) (sender.ring.slice_tail inside straight),
    sender.ring.drop_contents inside, rfl, rfl, rfl⟩

structure Sound (sender : Sender) (records : List Record) : Prop where
  stream : sender.wire ++ sender.ring.contents = stream sender.log
  items : sender.log.filterMap Note.item? = records
  lost : sender.lost = pending sender.log
  settled : ∀ before after count,
    sender.log = before ++ .lost count :: after → count = pending before

theorem stream_snoc (log : List (Note Record)) (note : Note Record) :
    stream (log ++ [note]) = stream log ++ (frame? note).getD [] := by
  unfold stream
  rw [List.filterMap_append, List.flatten_append]
  cases hframe : frame? note with
  | none => simp [hframe]
  | some bytes => simp [hframe]

theorem settled_snoc {log : List (Note Record)} {note : Note Record}
    (settled : ∀ before after count, log = before ++ .lost count :: after →
      count = pending before)
    (honest : ∀ count, note = .lost count → count = pending log) :
    ∀ before after count, log ++ [note] = before ++ .lost count :: after →
      count = pending before := by
  intro before after count hlog
  rcases List.eq_nil_or_concat' after with rfl | ⟨front, last, rfl⟩
  · obtain ⟨hsame, hnote⟩ := List.append_inj' hlog rfl
    rw [← hsame]
    exact honest count (List.singleton_inj.mp hnote)
  · rw [← List.cons_append, ← List.append_assoc] at hlog
    exact settled before front count (List.append_inj' hlog rfl).1

namespace Sound

theorem init : Sound .init [] where
  stream := rfl
  items := rfl
  lost := rfl
  settled := by
    intro before after count hlog
    simp [Sender.init] at hlog

section

variable (sound : Sound sender records)

include sound

theorem taken (htaken : Taken amount sender after) : Sound after records := by
  refine ⟨?_, ?_, ?_, ?_⟩
  · rw [htaken.wire, htaken.contents, List.append_assoc, List.take_append_drop, htaken.log]
    exact sound.stream
  · rw [htaken.log]
    exact sound.items
  · rw [htaken.lost, htaken.log]
    exact sound.lost
  · rw [htaken.log]
    exact sound.settled

theorem queue (pushed : Circ.Pushed record.bytes sender.ring ring)
    (armed : Bool) :
    Sound { sender with
      ring := ring
      armed := armed
      log := sender.log ++ [.queued record] } (records ++ [record]) := by
  refine ⟨?_, ?_, ?_, settled_snoc sound.settled fun _ absurd => (nomatch absurd)⟩
  · dsimp only
    rw [pushed.contents, ← List.append_assoc, sound.stream, stream_snoc]
    rfl
  · dsimp only
    rw [List.filterMap_append, sound.items]
    rfl
  · dsimp only
    rw [pending_snoc, sound.lost]
    rfl

theorem drop (record : Record) :
    Sound (sender.drop record) (records ++ [record]) := by
  refine ⟨?_, ?_, ?_, settled_snoc sound.settled fun _ absurd => (nomatch absurd)⟩
  · refine sound.stream.trans ?_
    unfold Sender.drop
    dsimp only
    rw [stream_snoc]
    exact (List.append_nil _).symm
  · unfold Sender.drop
    dsimp only
    rw [List.filterMap_append, sound.items]
    rfl
  · unfold Sender.drop
    dsimp only
    rw [pending_snoc, sound.lost]
    rfl

theorem announce
    (pushed : Circ.Pushed (lostRecord sender.lost) sender.ring ring)
    (armed : Bool) :
    Sound { sender with
      ring := ring
      lost := 0
      armed := armed
      log := sender.log ++ [.lost sender.lost] } records := by
  refine ⟨?_, ?_, ?_, settled_snoc sound.settled ?_⟩
  · dsimp only
    rw [pushed.contents, ← List.append_assoc, sound.stream, stream_snoc]
    rfl
  · dsimp only
    rw [List.filterMap_append, sound.items]
    exact List.append_nil _
  · dsimp only
    rw [pending_snoc]
    rfl
  · intro count hcount
    cases hcount
    exact sound.lost

end

end Sound

namespace Tcp

def restFlushed (result : SendResult) (len : Nat) : Nat :=
  if len = 0 then 0 else (result.taken len).getD 0

def restFinishes (result : SendResult) (len : Nat) : Bool :=
  len = 0 || (result.taken len).isSome

def flushed (first second : SendResult) (client : Sender) : Nat :=
  if bufLen ≤ client.ring.tail + client.ring.count then
    match first.taken (bufLen - client.ring.tail) with
    | none => 0
    | some amount =>
      if amount = bufLen - client.ring.tail then
        amount + restFlushed second (client.ring.count - amount)
      else amount
  else restFlushed first client.ring.count

def finishes (first second : SendResult) (client : Sender) : Bool :=
  if bufLen ≤ client.ring.tail + client.ring.count then
    first.taken (bufLen - client.ring.tail) = some (bufLen - client.ring.tail) &&
      restFinishes second (client.ring.count - (bufLen - client.ring.tail))
  else restFinishes first client.ring.count

variable {client : Sender} {first second result : SendResult}

theorem sendRest_spec (hlen : len = client.ring.count)
    (straight : client.ring.tail + len ≤ bufLen) :
    ∃ middle, Taken (restFlushed result len) client middle ∧
      (restFinishes result len = false → middle.ring.count ≠ 0) ∧
      (sendRest result len client).1 =
        if restFinishes result len then writeLost middle else middle := by
  unfold sendRest restFlushed restFinishes
  by_cases hzero : len = 0
  · refine ⟨client, ?_, ?_, ?_⟩
    · rw [if_pos hzero]
      exact .refl client
    · simp [hzero]
    · simp [hzero]
  · rw [if_neg hzero, if_neg hzero]
    cases htaken : result.taken len with
    | none => exact ⟨client, .refl client, fun _ => hlen ▸ hzero, by simp [hzero]⟩
    | some amount =>
      obtain ⟨_, hinside⟩ := SendResult.taken_le hzero htaken
      have hsent : Taken amount client (client.sent amount) := sent_taken (by omega) (by omega)
      exact ⟨client.sent amount, hsent, by simp, by simp⟩

theorem bufSend_spec (first second : SendResult) (client : Sender) :
    ∃ middle, Taken (flushed first second client) client middle ∧
      (finishes first second client = false → middle.ring.count ≠ 0) ∧
      (bufSend first second client).1 =
        if finishes first second client then writeLost middle else middle := by
  have htail := client.ring.tail_lt
  have hcount := client.ring.count_add_space
  unfold bufSend flushed finishes
  split
  · rename_i wraps
    have hsome : bufLen - client.ring.tail ≠ 0 := by omega
    cases htaken : first.taken (bufLen - client.ring.tail) with
    | none => exact ⟨client, .refl client, fun _ => by omega, by simp⟩
    | some amount =>
      obtain ⟨_, hinside⟩ := SendResult.taken_le hsome htaken
      have hfirst : Taken amount client (client.sent amount) := sent_taken (by omega) (by omega)
      by_cases hall : amount = bufLen - client.ring.tail
      · have hmoved : (client.sent amount).ring.tail = 0 := by
          change (client.ring.tail + amount) % bufLen = 0
          rw [hall, Nat.add_sub_cancel' htail.le, Nat.mod_self]
        obtain ⟨middle, hsecond, hleft, hresult⟩ :=
          @sendRest_spec (client.sent amount) second
            (client.ring.count - amount) hfirst.count.symm (by
              rw [hmoved]
              omega)
        refine ⟨middle, ?_, ?_, ?_⟩
        · dsimp only
          rw [if_pos hall]
          exact hfirst.trans hsecond
        · rw [← hall]
          simpa using hleft
        · dsimp only
          rw [if_pos hall, hresult, ← hall]
          simp
      · refine ⟨client.sent amount, ?_, ?_, ?_⟩
        · dsimp only
          rw [if_neg hall]
          exact hfirst
        · intro _
          rw [hfirst.count]
          omega
        · dsimp only
          rw [if_neg hall]
          simp [hall]
  · exact sendRest_spec rfl (by omega)

theorem writeLost_sound (sound : Sound client records) :
    Sound (writeLost client) records := by
  unfold writeLost
  split
  · exact sound.announce (bufWrite_pushed _) client.armed
  · exact sound

theorem writeLost_lost (client : Sender) : (writeLost client).lost =
    if lostLen < client.ring.space then 0 else client.lost := by
  unfold writeLost
  split
  · rename_i fits
    rw [if_pos fits.2]
  · rename_i fits
    split_ifs with room
    · have hnone : ¬ 0 < client.lost := fun some => fits ⟨some, room⟩
      omega
    · rfl

theorem writeLost_count (client : Sender) :
    client.ring.count ≤ (writeLost client).ring.count := by
  unfold writeLost
  split_ifs with fits
  · have hpushed := bufWrite_pushed (Nat.le_of_lt (lostRecord_length client.lost ▸ fits.2))
    rw [hpushed.count]
    exact Nat.le_add_right _ _
  · exact le_rfl

structure Armed (client : Sender) : Prop where
  armed : client.ring.count ≠ 0 → client.armed = true
  waiting : 0 < client.lost → client.ring.count ≠ 0

theorem writeLost_armed (client : Sender) :
    (writeLost client).armed = client.armed := by
  unfold writeLost
  split <;> rfl

theorem writeLost_of_none (none : client.lost = 0) :
    writeLost client = client := by
  unfold writeLost
  rw [dif_neg]
  intro fits
  omega

theorem bufSend_sound (sound : Sound client records)
    (first second : SendResult) :
    Sound (bufSend first second client).1 records := by
  obtain ⟨middle, htaken, _, hresult⟩ := bufSend_spec first second client
  rw [hresult]
  split
  · exact writeLost_sound (sound.taken htaken)
  · exact sound.taken htaken

theorem bufSend_armed (harmed : Armed client) (first second : SendResult) :
    Armed (bufSend first second client).1 := by
  obtain ⟨middle, htaken, hleft, hresult⟩ := bufSend_spec first second client
  have hcount := htaken.count
  have hlost := htaken.lost
  have hsame := htaken.armed
  rw [hresult]
  split_ifs with stopped
  · by_cases hempty : client.ring.count = 0
    · have hnone : middle.lost = 0 := by
        have hwaiting := harmed.waiting
        omega
      rw [writeLost_of_none hnone]
      refine ⟨fun absurd => ?_, fun absurd => ?_⟩ <;> omega
    · refine ⟨fun _ => ?_, fun hpending => ?_⟩
      · rw [writeLost_armed, hsame]
        exact harmed.armed hempty
      · rw [writeLost_lost] at hpending
        split_ifs at hpending with full
        · exact absurd hpending (Nat.lt_irrefl 0)
        · have hspace := middle.ring.count_add_space
          have hgrown := writeLost_count middle
          have hlen : lostLen = 24 := rfl
          have hbuf : bufLen = 65536 := rfl
          omega
  · have hsome := hleft (eq_false_of_ne_true stopped)
    refine ⟨fun _ => ?_, fun _ => hsome⟩
    rw [hsame]
    exact harmed.armed (by omega)

section

variable (sound : Sound client records) (harmed : Armed client)

include sound harmed

theorem makeRoom_spec (record : Record) (first second : SendResult) :
    Sound (makeRoom record first second client) records ∧
    Armed (makeRoom record first second client) := by
  unfold makeRoom
  split
  · exact ⟨bufSend_sound sound first second, bufSend_armed harmed first second⟩
  · exact ⟨sound, harmed⟩

theorem enqueue_spec (record : Record) :
    Sound (enqueue record client) (records ++ [record]) ∧
    Armed (enqueue record client) := by
  unfold enqueue
  split
  · rename_i fits
    have hpushed := bufWrite_pushed fits
    have hcount := hpushed.count
    refine ⟨sound.queue hpushed _, fun _ => ?_, fun hpending => ?_⟩
    · dsimp only
      by_cases hempty : client.ring.count = 0
      · rw [decide_eq_true hempty, Bool.or_true]
      · rw [harmed.armed hempty, Bool.true_or]
    · have hsome := harmed.waiting hpending
      dsimp only
      omega
  · rename_i full
    have hspace := client.ring.count_add_space
    have hshort := record.short
    have hsome : client.ring.count ≠ 0 := by omega
    exact ⟨sound.drop record, fun _ => harmed.armed hsome, fun _ => hsome⟩

theorem tcpSend_spec (record : Record) (first second : SendResult) :
    Sound (tcpSend record first second client) (records ++ [record]) ∧
    Armed (tcpSend record first second client) := by
  obtain ⟨hsound, hready⟩ := makeRoom_spec sound harmed record first second
  exact enqueue_spec hsound hready record

theorem handleOut_spec (first second : SendResult) :
    Sound (handleOut first second client) records ∧
    Armed (handleOut first second client) := by
  have hsound := bufSend_sound sound first second
  have hready := bufSend_armed harmed first second
  unfold handleOut
  split
  · exact ⟨hsound, hready⟩
  · split_ifs with hempty
    · exact ⟨⟨hsound.stream, hsound.items, hsound.lost, hsound.settled⟩,
        fun absurd => (absurd hempty).elim, hready.waiting⟩
    · exact ⟨hsound, hready⟩

end

theorem run_spec (actions : List Action) :
    Sound (run actions) (actions.filterMap Action.record?) ∧
    Armed (run actions) := by
  induction actions using List.reverseRecOn with
  | nil =>
    exact ⟨Sound.init, fun absurd => (absurd rfl).elim, fun absurd => (Nat.lt_irrefl 0 absurd).elim⟩
  | append_singleton actions action ih =>
    obtain ⟨hsound, harmed⟩ := ih
    unfold run at hsound harmed ⊢
    rw [List.foldl_append, List.filterMap_append]
    cases action with
    | broadcast record first second => exact tcpSend_spec hsound harmed record first second
    | writable first second =>
      have hstep := handleOut_spec hsound harmed first second
      rw [← List.append_nil (actions.filterMap Action.record?)] at hstep
      exact hstep

/-- For every sequence of broadcasts and of what `send` returns: the bytes on
the wire are a first part of the queued records, in the order of the broadcasts,
and lost records; what has been dropped is the sum of the lost records and the
lost count; and `EPOLLOUT` is asked for while bytes are buffered. -/
theorem wire_is_whole_records (actions : List Action) :
    (run actions).wire <+: stream (run actions).log ∧
    (run actions).log.filterMap Note.item? = actions.filterMap Action.record? ∧
    ((run actions).log.filterMap Note.queued?).Sublist
      (actions.filterMap Action.record?) ∧
    ((run actions).log.filter Note.isDropped).length =
      ((run actions).log.map Note.announced).sum + (run actions).lost ∧
    ((run actions).ring.contents ≠ [] → (run actions).armed = true) := by
  obtain ⟨sound, harmed⟩ := run_spec actions
  refine ⟨⟨_, sound.stream⟩, sound.items, ?_, ?_, fun buffered => ?_⟩
  · rw [← sound.items]
    exact queued_sublist _
  · rw [sound.lost]
    exact dropped_balance sound.settled
  · apply harmed.armed
    intro hempty
    exact buffered (List.length_eq_zero_iff.mp (by rw [Circ.contents_length, hempty]))

end Tcp

end PerfProf.Spread
