import Mathlib.Data.List.Nodup
import Mathlib.Data.List.Perm.Basic
import PerfProf.MultiTrace.Queue

namespace PerfProf.MultiTrace

open PerfProf.Data

/-! The counters of the timeline agree with its nodes. -/

def sizes (events : List Entry) : Nat := (events.map Entry.size).sum

theorem sizes_perm (perm : first.Perm second) : sizes first = sizes second :=
  (perm.map Entry.size).sum_nat

@[simp] theorem sizes_cons (event : Entry) (events : List Entry) :
    sizes (event :: events) = event.size + sizes events := by
  simp [sizes]

def entries (timeline : List TimelineNode) : List Entry :=
  timeline.map TimelineNode.entry

def unneededEntries (timeline : List TimelineNode) : List Entry :=
  entries (timeline.filter TimelineNode.unneeded)

def pendingEntries (pending : List Node) : List Entry :=
  pending.map Node.entry

def tally (delete : Nat) (timeline : List TimelineNode) (pending : List Node) :
    TimelineStat where
  new := delete + timeline.length
  delete := delete
  unneeded := (unneededEntries timeline).length
  unneededBytes := sizes (unneededEntries timeline)
  pending := pending.length
  pendingBytes := sizes (pendingEntries pending)
  memBytes := sizes (entries timeline)
  underflow := false

theorem entries_markUnneeded (event : Entry) (timeline : List TimelineNode) :
    entries (markUnneeded event timeline) = entries timeline := by
  unfold entries markUnneeded
  rw [List.map_map]
  apply List.map_congr_left
  intro node _
  dsimp only [Function.comp]
  split <;> rfl

variable {event : Entry} {node : Node}

variable {timeline first second : List TimelineNode}

theorem markUnneeded_of_not_mem (missing : event ∉ entries timeline) :
    markUnneeded event timeline = timeline := by
  refine (List.map_congr_left fun node member => ?_).trans (List.map_id timeline)
  rw [if_neg, id]
  rintro rfl
  exact missing (List.mem_map_of_mem member)

theorem unneededEntries_cons (node : TimelineNode) (rest : List TimelineNode) :
    unneededEntries (node :: rest) =
      if node.unneeded then node.entry :: unneededEntries rest
      else unneededEntries rest := by
  unfold unneededEntries entries
  rw [List.filter_cons]
  split <;> rfl

theorem unneededEntries_mark (nodup : (entries timeline).Nodup)
    (member : event ∈ entries timeline)
    (needed : event ∉ unneededEntries timeline) :
    (unneededEntries (markUnneeded event timeline)).Perm
      (event :: unneededEntries timeline) := by
  induction timeline with
  | nil => cases member
  | cons head tail ih =>
    obtain ⟨hhead, htail⟩ := List.nodup_cons.mp nodup
    have hmark : markUnneeded event (head :: tail) =
        (if head.entry = event then { head with unneeded := true } else head) ::
          markUnneeded event tail := rfl
    rw [unneededEntries_cons] at needed ⊢
    rw [hmark, unneededEntries_cons]
    by_cases same : head.entry = event
    · subst same
      rw [if_pos rfl, if_pos rfl, markUnneeded_of_not_mem hhead]
      cases hflag : head.unneeded with
      | true =>
        rw [hflag, if_pos rfl] at needed
        exact absurd (.head _) needed
      | false => exact List.Perm.refl _
    · rw [if_neg same]
      have hmember : event ∈ entries tail := (List.mem_cons.mp member).resolve_left (Ne.symm same)
      cases hflag : head.unneeded with
      | true =>
        rw [hflag, if_pos rfl] at needed
        have hperm := ih htail hmember fun found => needed (.tail _ found)
        exact (hperm.cons _).trans (List.Perm.swap _ _ _)
      | false =>
        rw [hflag] at needed
        exact ih htail hmember needed

theorem timelineInsert_perm (new : TimelineNode)
    (timeline : List TimelineNode) :
    (timelineInsert new timeline).Perm (new :: timeline) := by
  induction timeline with
  | nil => exact List.Perm.refl _
  | cons head tail ih =>
    rw [timelineInsert]
    split
    · exact List.Perm.refl _
    · exact (ih.cons head).trans (List.Perm.swap new head tail)

theorem unneededEntries_perm (perm : first.Perm second) :
    (unneededEntries first).Perm (unneededEntries second) :=
  (perm.filter _).map _

theorem tally_perm (perm : first.Perm second) (delete : Nat)
    (pending : List Node) :
    tally delete first pending = tally delete second pending := by
  have hunneeded := unneededEntries_perm perm
  simp [tally, perm.length_eq, hunneeded.length_eq, sizes_perm hunneeded,
    sizes_perm (perm.map TimelineNode.entry), entries]

def Node.transit (node : Node) : List Entry :=
  if node.needBackup then [node.entry] else []

theorem transit_of_wanted (wanted : node.needBackup = true) :
    node.transit = [node.entry] := if_pos wanted

theorem transit_of_unwanted (unwanted : node.needBackup = false) :
    node.transit = [] := by
  rw [Node.transit, unwanted]
  rfl

theorem timelineNodeNew_needed (node : Node) (unneeded : Bool) (state : State) :
    (timelineNodeNew node unneeded state).needed = state.needed := by
  unfold timelineNodeNew
  split
  · cases unneeded <;> rfl
  · rfl

theorem mem_timelineNodeNew
    (member : event ∈ entries (timelineNodeNew node unneeded state).timeline) :
    event = node.entry ∨ event ∈ entries state.timeline := by
  have hinsert : ∀ flag, event ∈ entries (timelineInsert ⟨node.entry, flag⟩
      state.timeline) → event = node.entry ∨ event ∈ entries state.timeline := by
    intro flag found
    have hperm := (timelineInsert_perm ⟨node.entry, flag⟩ state.timeline).map TimelineNode.entry
    exact List.mem_cons.mp (hperm.mem_iff.mp found)
  unfold timelineNodeNew at member
  split at member
  · cases unneeded <;> exact hinsert _ member
  · exact hinsert _ member

structure Ledger (loose : List Entry) (state : State) : Prop where
  nodup : (entries state.timeline).Nodup
  perm : (entries state.timeline).Perm (loose ++ unneededEntries state.timeline)
  stat : ∃ delete, state.tlStat = tally delete state.timeline state.pending
  sound : state.bug = false

def State.books (state : State) :
    List TimelineNode × TimelineStat × List Node × Bool :=
  (state.timeline, state.tlStat, state.pending, state.bug)

namespace Ledger

variable {state next : State}

theorem congr (ledger : Ledger loose state) (same : next.books = state.books) :
    Ledger loose next := by
  simp only [State.books, Prod.mk.injEq] at same
  obtain ⟨htimeline, hstat, hpending, hbug⟩ := same
  obtain ⟨hnodup, hperm, hcounts, hsound⟩ := ledger
  exact ⟨by rwa [htimeline], by rwa [htimeline], by rwa [hstat, htimeline, hpending], by rwa [hbug]⟩

theorem reorder (ledger : Ledger loose state) (perm : loose.Perm other) :
    Ledger other state :=
  ⟨ledger.nodup, ledger.perm.trans (perm.append_right _), ledger.stat, ledger.sound⟩

variable {event : Entry}

theorem mem_entries (ledger : Ledger loose state) (member : event ∈ loose) :
    event ∈ entries state.timeline :=
  ledger.perm.mem_iff.mpr (List.mem_append_left _ member)

theorem not_unneeded (ledger : Ledger loose state) (member : event ∈ loose) :
    event ∉ unneededEntries state.timeline := by
  have hnodup := ledger.perm.nodup_iff.mp ledger.nodup
  exact fun found => (List.nodup_append.mp hnodup).2.2 event member event found rfl

theorem mark (ledger : Ledger (event :: loose) state) :
    Ledger loose (setUnneeded event state) := by
  have hentries : entries (setUnneeded event state).timeline =
      entries state.timeline := entries_markUnneeded event state.timeline
  have hmark : (unneededEntries (setUnneeded event state).timeline).Perm
      (event :: unneededEntries state.timeline) :=
    unneededEntries_mark ledger.nodup (ledger.mem_entries (.head _)) (ledger.not_unneeded (.head _))
  obtain ⟨delete, hstat⟩ := ledger.stat
  refine ⟨hentries ▸ ledger.nodup, ?_, ⟨delete, ?_⟩, ledger.sound⟩
  · rw [hentries]
    exact (ledger.perm.trans List.perm_middle.symm).trans (hmark.symm.append_left loose)
  · have hlength : (setUnneeded event state).timeline.length =
        state.timeline.length := List.length_map _
    change state.tlStat.addUnneeded event.size = _
    rw [hstat]
    simp only [TimelineStat.addUnneeded, tally, hlength, hmark.length_eq,
      sizes_perm hmark, hentries, List.length_cons, sizes_cons, Nat.add_comm]
    rfl

theorem insert (ledger : Ledger loose state) {new : TimelineNode}
    (fresh : new.entry ∉ entries state.timeline)
    (htimeline : next.timeline = timelineInsert new state.timeline)
    (hstat : ∀ delete,
      state.tlStat = tally delete state.timeline state.pending →
        next.tlStat = tally delete (new :: state.timeline) next.pending)
    (hbug : next.bug = state.bug) :
    Ledger ((if new.unneeded then [] else [new.entry]) ++ loose) next := by
  obtain ⟨delete, hcounts⟩ := ledger.stat
  have hperm := timelineInsert_perm new state.timeline
  have hentries : (entries (timelineInsert new state.timeline)).Perm
      (new.entry :: entries state.timeline) := hperm.map TimelineNode.entry
  refine ⟨?_, ?_, ⟨delete, ?_⟩, hbug.trans ledger.sound⟩
  · rw [htimeline]
    exact hentries.nodup_iff.mpr (List.nodup_cons.mpr ⟨fresh, ledger.nodup⟩)
  · rw [htimeline]
    refine ((hentries.trans (ledger.perm.cons _)).trans ?_).trans
      ((unneededEntries_perm hperm).symm.append_left _)
    rw [unneededEntries_cons]
    split
    · exact List.perm_middle.symm
    · exact .refl _
  · rw [htimeline, hstat delete hcounts]
    exact tally_perm hperm.symm delete next.pending

theorem insertUntraced (ledger : Ledger loose state)
    (untraced : node.entry.tp.untraced = true)
    (fresh : node.entry ∉ entries state.timeline) :
    Ledger loose (timelineNodeNew node true state) := by
  rw [timelineNodeNew, if_pos untraced, if_pos rfl]
  refine @insert state _ loose ledger ⟨node.entry, true⟩ fresh rfl ?_ rfl
  intro delete hstat
  change (state.tlStat.addNode node.entry.size).addUnneeded node.entry.size =
    tally delete _ state.pending
  rw [hstat]
  simp [TimelineStat.addUnneeded, TimelineStat.addNode, tally,
    unneededEntries_cons, entries]
  omega

theorem insertTraced (ledger : Ledger loose state)
    (traced : node.entry.tp.untraced = false)
    (fresh : node.entry ∉ entries state.timeline) (unneeded : Bool) :
    Ledger (node.entry :: loose) (timelineNodeNew node unneeded state) := by
  rw [timelineNodeNew, traced]
  refine @insert state _ loose ledger ⟨node.entry, false⟩ fresh rfl ?_ rfl
  intro delete hstat
  change (state.tlStat.addPending node.entry.size).addNode node.entry.size =
    tally delete _ (state.pending ++ [node])
  rw [hstat]
  simp [TimelineStat.addPending, TimelineStat.addNode, tally, pendingEntries,
    unneededEntries_cons, entries, sizes]
  omega

theorem pop {first : Node} {rest : List Node}
    (ledger : Ledger (first.entry :: loose) state)
    (hpending : state.pending = first :: rest) :
    Ledger (first.transit ++ loose) (popPending first rest state) := by
  obtain ⟨delete, hstat⟩ := ledger.stat
  have hpopped : Ledger (first.entry :: loose) ((state.setPending rest).count
      (·.subPending first.entry.size)) := by
    refine ⟨ledger.nodup, ledger.perm, ⟨delete, ?_⟩, ledger.sound⟩
    change state.tlStat.subPending first.entry.size = tally delete state.timeline rest
    rw [hstat, hpending]
    simp [TimelineStat.subPending, tally, pendingEntries]
  unfold popPending Node.transit
  dsimp only
  split
  · exact hpopped
  · exact hpopped.mark

theorem delete (ledger : Ledger loose state) {node : TimelineNode}
    {rest : List TimelineNode} (htimeline : state.timeline = node :: rest)
    (unneeded : node.unneeded = true)
    (hpending : ∀ waiting ∈ state.pending, waiting.entry ∈ loose) :
    Ledger loose (timelineNodeDelete state) := by
  obtain ⟨delete, hstat⟩ := ledger.stat
  have hunneeded : unneededEntries state.timeline = node.entry :: unneededEntries rest := by
    rw [htimeline, unneededEntries_cons, if_pos unneeded]
  have hnone : state.pending.any (·.entry = node.entry) = false := by
    rw [List.any_eq_false]
    intro waiting member
    rw [decide_eq_true_iff]
    intro same
    have hneeded := ledger.not_unneeded (hpending waiting member)
    rw [hunneeded, same] at hneeded
    exact hneeded (.head _)
  have hnew : timelineNodeDelete state =
      ((state.setTimeline rest).count (·.subNode node.entry.size)).count
        (·.subUnneeded node.entry.size) := by
    rw [timelineNodeDelete, htimeline]
    dsimp only [releaseNode]
    rw [if_pos unneeded, if_neg]
    change ¬ state.pending.any (·.entry = node.entry) = true
    rw [hnone]
    exact Bool.false_ne_true
  obtain ⟨hnodup, hperm, _, hsound⟩ := ledger
  rw [hunneeded] at hperm
  rw [htimeline] at hnodup hperm
  rw [hnew]
  refine ⟨(List.nodup_cons.mp hnodup).2, ?_, ⟨delete + 1, ?_⟩, hsound⟩
  · exact (hperm.trans List.perm_middle).cons_inv
  · change (state.tlStat.subNode node.entry.size).subUnneeded node.entry.size =
      tally (delete + 1) rest state.pending
    rw [hstat, tally, hunneeded, htimeline]
    simp [TimelineStat.subUnneeded, TimelineStat.subNode, tally, entries]
    omega

end Ledger

structure Accounted (transit : List Entry) (now : U64) (state : State) :
    Prop where
  ledger : Ledger (transit ++ (pendingEntries state.pending ++ state.backup)) state
  seqs : ∀ event ∈ entries state.timeline, event.seq < state.eventHandled
  needed : state.needed.Perm state.backup
  ordered : state.needed.Pairwise fun first second => first.time ≤ second.time
  past : ∀ event ∈ state.needed, event.time ≤ now

namespace Accounted

variable {cfg : Config} {now : U64} {state next : State}

theorem congr (accounted : Accounted transit now state)
    (hbooks : next.books = state.books) (hbackup : next.backup = state.backup)
    (hneeded : next.needed = state.needed)
    (hseq : state.eventHandled ≤ next.eventHandled) :
    Accounted transit now next := by
  have htimeline : next.timeline = state.timeline := congrArg (fun books => books.1) hbooks
  have hpending : next.pending = state.pending := congrArg (fun books => books.2.2.1) hbooks
  obtain ⟨hledger, hseqs, hperm, hordered, hpast⟩ := accounted
  refine ⟨?_, ?_, ?_, ?_, ?_⟩
  · rw [hpending, hbackup]
    exact hledger.congr hbooks
  · rw [htimeline]
    exact fun event member => (hseqs event member).trans_le hseq
  · rwa [hneeded, hbackup]
  · rwa [hneeded]
  · rwa [hneeded]

theorem log (accounted : Accounted transit now state) (act : Act) :
    Accounted transit now (state.log act) :=
  accounted.congr rfl rfl rfl le_rfl

variable {event : Entry} {node : Node}

theorem drop (accounted : Accounted [event] now state) :
    Accounted [] now (setUnneeded event state) := by
  refine ⟨accounted.ledger.mark, ?_, accounted.needed, accounted.ordered, accounted.past⟩
  intro other found
  change other ∈ entries (markUnneeded event state.timeline) at found
  rw [entries_markUnneeded] at found
  exact accounted.seqs other found

theorem setLostList (accounted : Accounted transit now state) (cfg : Config)
    (ins : Nat) (lost : List LostNode) :
    Accounted transit now (setLostList cfg ins lost state) := by
  unfold MultiTrace.setLostList
  split
  · exact accounted.congr rfl rfl rfl le_rfl
  · exact accounted.congr rfl rfl rfl le_rfl

theorem demoted (accounted : Accounted node.transit now state)
    (outcome : LostOutcome node state result) :
    Accounted result.1.transit now result.2 := by
  have hentry := outcome.kept.1
  rcases outcome.state_eq with ⟨same, hbackup⟩ | ⟨same, wanted, unwanted⟩
  · rw [Node.transit, same, hbackup, hentry]
    exact accounted
  · rw [transit_of_wanted wanted] at accounted
    rw [transit_of_unwanted unwanted, same]
    exact accounted.drop

section

variable (htimeline : cfg.needTimeline = true)

include htimeline

theorem remove (accounted : Accounted transit now state)
    (member : event ∈ state.backup) :
    Accounted transit now (backupRemove cfg event state) := by
  have hnew : backupRemove cfg event state = setUnneeded event
      (((state.setBackup (state.backup.erase event)).log (.remove event)).setNeeded
        (state.needed.erase event)) := by
    rw [backupRemove, perfEventBackupNodeDelete, if_pos htimeline]
    rfl
  have hmoved : (transit ++ (pendingEntries state.pending ++ state.backup)).Perm
      (event :: (transit ++ (pendingEntries state.pending ++
        state.backup.erase event))) := by
    refine (((List.perm_cons_erase member).append_left _).append_left _).trans ?_
    exact (List.perm_middle.append_left transit).trans List.perm_middle
  rw [hnew]
  refine ⟨?_, ?_, accounted.needed.erase event, ?_, ?_⟩
  · apply Ledger.mark
    exact (accounted.ledger.reorder hmoved).congr rfl
  · intro other found
    change other ∈ entries (markUnneeded event state.timeline) at found
    rw [entries_markUnneeded] at found
    exact accounted.seqs other found
  · exact accounted.ordered.sublist List.erase_sublist
  · exact fun other found => accounted.past other (List.erase_sublist.subset found)

theorem new (accounted : Accounted [event] now state)
    (htime : event.time = now) :
    Accounted [] now (backupNodeNew cfg event state) := by
  have hnew : backupNodeNew cfg event state =
      ((state.setBackup (backupInsert cfg event state.backup)).log
        (.backup event)).setNeeded (state.needed ++ [event]) := by
    rw [backupNodeNew, if_pos htimeline]
    rfl
  have hinsert := backupInsert_perm cfg event state.backup
  rw [hnew]
  refine ⟨?_, accounted.seqs, ?_, ?_, ?_⟩
  · have hmoved : (event :: (pendingEntries state.pending ++ state.backup)).Perm
        (pendingEntries state.pending ++ backupInsert cfg event state.backup) :=
      List.perm_middle.symm.trans (hinsert.symm.append_left _)
    exact (accounted.ledger.reorder hmoved).congr rfl
  · exact (List.perm_append_singleton event state.needed).trans
      ((accounted.needed.cons event).trans hinsert.symm)
  · refine List.pairwise_append.mpr ⟨accounted.ordered, List.pairwise_singleton _ _, ?_⟩
    intro first hfirst second hsecond
    rw [List.mem_singleton.mp hsecond, htime]
    exact accounted.past first hfirst
  · intro other found
    rcases List.mem_append.mp found with found | found
    · exact accounted.past other found
    · rw [List.mem_singleton.mp found]
      exact htime.le

theorem releases (accounted : Accounted transit now state)
    (released : Releases cfg state next) : Accounted transit now next :=
  released.preserves (Accounted transit now) accounted (fun _ _ _ _ _ accounted => accounted.log _)
    (fun _ _ member accounted => accounted.remove htimeline member)

theorem called (accounted : Accounted transit now state)
    (outcome : TwoOutcome cfg node state result) :
    Accounted transit now result.2 := by
  have hcall : ∀ prev, Accounted transit now (callTwo cfg prev node state) ∧
      (callTwo cfg prev node state).backup = state.backup := by
    intro prev
    unfold callTwo
    split
    · exact ⟨accounted.log _, rfl⟩
    · exact ⟨accounted, rfl⟩
  cases outcome with
  | skip => exact accounted
  | first => exact accounted.log _
  | keep prev => exact (hcall prev).1
  | take prev member =>
    obtain ⟨hcalled, hbackup⟩ := hcall prev
    exact hcalled.remove htimeline (hbackup ▸ member)

theorem backedUp (accounted : Accounted node.transit now state)
    (outcome : BackupOutcome cfg node state result)
    (htime : node.entry.time = now) : Accounted [] now result.2 := by
  cases outcome with
  | skip unwanted => rwa [transit_of_unwanted unwanted] at accounted
  | stale exist wanted =>
    rw [transit_of_wanted wanted] at accounted
    exact accounted.drop
  | replace exist wanted found =>
    rw [transit_of_wanted wanted] at accounted
    exact (accounted.remove htimeline (List.mem_of_find?_eq_some found)).new htimeline htime
  | fresh wanted =>
    rw [transit_of_wanted wanted] at accounted
    exact accounted.new htimeline htime

theorem process (accounted : Accounted node.transit node.entry.time state)
    (processed : Processed cfg node state next) :
    Accounted [] node.entry.time next := by
  cases processed with
  | intro _ releases lostOutcome twoOutcome backupOutcome =>
    have hdemoted := ((accounted.log (.handle node.entry)).releases htimeline
      releases).demoted lostOutcome
    have hcalled := (hdemoted.setLostList cfg _ _).called htimeline twoOutcome
    exact hcalled.backedUp htimeline backupOutcome (congrArg Entry.time lostOutcome.kept.1)

end

theorem insert (accounted : Accounted [] now state)
    (hseq : node.entry.seq = state.eventHandled) :
    Accounted [] now
      (timelineNodeNew node (!node.needBackup || node.entry.tp.untraced)
        state.nextSeq) := by
  have hnext : Accounted [] now state.nextSeq := accounted.congr rfl rfl rfl (Nat.le_succ _)
  have fresh : node.entry ∉ entries state.nextSeq.timeline := by
    intro member
    have hlt := accounted.seqs node.entry member
    omega
  generalize hflag : (!node.needBackup || node.entry.tp.untraced) = unneeded
  have hcore := timelineNodeNew_core node unneeded state.nextSeq
  have hbackup : (timelineNodeNew node unneeded state.nextSeq).backup =
      state.backup := congrArg Core.backup hcore
  have hhandled : (timelineNodeNew node unneeded state.nextSeq).eventHandled =
      state.eventHandled + 1 := congrArg Core.eventHandled hcore
  have hpending := timelineNodeNew_pending node unneeded state.nextSeq
  have hneeded := timelineNodeNew_needed node unneeded state.nextSeq
  refine ⟨?_, ?_, ?_, ?_, ?_⟩
  · rw [hbackup, hpending]
    cases hkind : node.entry.tp.untraced with
    | true =>
      rw [hkind, Bool.or_true] at hflag
      rw [← hflag]
      exact hnext.ledger.insertUntraced hkind fresh
    | false =>
      refine (hnext.ledger.insertTraced hkind fresh _).reorder ?_
      change (node.entry :: (pendingEntries state.pending ++ state.backup)).Perm
        (List.map Node.entry (state.pending ++ [node]) ++ state.backup)
      rw [List.map_append, List.append_assoc]
      exact List.perm_middle.symm
  · intro event member
    rw [hhandled]
    rcases mem_timelineNodeNew member with rfl | member
    · exact hseq ▸ Nat.lt_succ_self _
    · exact hnext.seqs event member
  · rw [hneeded, hbackup]
    exact hnext.needed
  · rw [hneeded]
    exact hnext.ordered
  · rw [hneeded]
    exact hnext.past

theorem pop (accounted : Accounted [] now state) {first : Node}
    {rest : List Node} (hpending : state.pending = first :: rest)
    (hnow : now ≤ first.entry.time) :
    Accounted first.transit first.entry.time (popPending first rest state) := by
  have hbackup : (popPending first rest state).backup = state.backup :=
    congrArg Core.backup (popPending_core first rest state)
  have hhandled : (popPending first rest state).eventHandled = state.eventHandled := congrArg
      Core.eventHandled (popPending_core first rest state)
  have hneeded : (popPending first rest state).needed = state.needed := by
    unfold popPending
    cases first.needBackup <;> rfl
  have hentries : entries (popPending first rest state).timeline = entries state.timeline := by
    unfold popPending
    dsimp only
    split
    · rfl
    · exact entries_markUnneeded first.entry state.timeline
  have hledger := accounted.ledger
  rw [hpending] at hledger
  refine ⟨?_, ?_, ?_, ?_, ?_⟩
  · rw [popPending_pending, hbackup]
    exact hledger.pop hpending
  · rw [hentries, hhandled]
    exact accounted.seqs
  · rw [hneeded, hbackup]
    exact accounted.needed
  · rw [hneeded]
    exact accounted.ordered
  · rw [hneeded]
    exact fun event member => (accounted.past event member).trans hnow

end Accounted

theorem timelineNodeDelete_of_unneeded {state : State} {node : TimelineNode}
    {rest : List TimelineNode} (htimeline : state.timeline = node :: rest)
    (hnone : ∀ waiting ∈ state.pending, waiting.entry ≠ node.entry) :
    (timelineNodeDelete state).timeline = rest ∧
    (timelineNodeDelete state).pending = state.pending ∧
    (timelineNodeDelete state).needed = state.needed := by
  have hany : ¬ (state.setTimeline rest).pending.any (·.entry = node.entry) =
      true := by
    rw [List.any_eq_true]
    rintro ⟨waiting, member, same⟩
    exact hnone waiting member (of_decide_eq_true same)
  rw [timelineNodeDelete, htimeline]
  dsimp only [releaseNode]
  rw [if_neg hany]
  cases node.unneeded <;> exact ⟨rfl, rfl, rfl⟩

namespace Accounted

variable {cfg : Config} {now : U64} {state : State}

variable {node : TimelineNode} {rest : List TimelineNode}

section

variable (accounted : Accounted [] now state)

include accounted

section

variable (htimeline : state.timeline = node :: rest)

include htimeline

theorem head_unneeded
    (unlinked : node.entry ∉ pendingEntries state.pending ++ state.backup) :
    node.unneeded = true := by
  obtain ⟨⟨hnodup, hperm, _, _⟩, _⟩ := accounted
  have hmember : node.entry ∈ entries state.timeline := by
    rw [htimeline]
    exact .head _
  have hunneeded := (List.mem_append.mp (hperm.mem_iff.mp hmember)).resolve_left unlinked
  rw [htimeline] at hnodup hunneeded
  cases hflag : node.unneeded with
  | true => rfl
  | false =>
    rw [unneededEntries_cons, hflag] at hunneeded
    have hrest : node.entry ∈ entries rest := (List.filter_sublist.map _).subset hunneeded
    exact absurd hrest (List.nodup_cons.mp hnodup).1

theorem unlinked (unneeded : node.unneeded = true) :
    node.entry ∉ pendingEntries state.pending ++ state.backup := by
  intro member
  apply accounted.ledger.not_unneeded member
  rw [htimeline, unneededEntries_cons, if_pos unneeded]
  exact .head _

theorem delete (unneeded : node.unneeded = true) :
    Accounted [] now (timelineNodeDelete state) ∧
    (timelineNodeDelete state).pending = state.pending := by
  have hunlinked := accounted.unlinked htimeline unneeded
  have hnone : ∀ waiting ∈ state.pending, waiting.entry ≠ node.entry := by
    intro waiting member same
    apply hunlinked
    rw [← same]
    exact List.mem_append_left _ (List.mem_map_of_mem member)
  obtain ⟨hrest, hpending, hneeded⟩ := timelineNodeDelete_of_unneeded htimeline hnone
  have hcore := timelineNodeDelete_core state
  have hbackup : (timelineNodeDelete state).backup = state.backup := congrArg Core.backup hcore
  have hhandled : (timelineNodeDelete state).eventHandled =
      state.eventHandled := congrArg Core.eventHandled hcore
  refine ⟨⟨?_, ?_, ?_, ?_, ?_⟩, hpending⟩
  · rw [hbackup, hpending]
    refine accounted.ledger.delete htimeline unneeded fun waiting member => ?_
    exact List.mem_append_right _ (List.mem_append_left _ (List.mem_map_of_mem member))
  · rw [hrest, hhandled]
    intro event member
    apply accounted.seqs
    rw [htimeline]
    exact .tail _ member
  · rw [hneeded, hbackup]
    exact accounted.needed
  · rw [hneeded]
    exact accounted.ordered
  · rw [hneeded]
    exact accounted.past

end

theorem freeLoop
    (hbefore : ∀ event ∈ pendingEntries state.pending ++ state.backup,
      before ≤ event.time)
    (rounds : Nat) :
    Accounted [] now (freeUnneededLoop cfg before rounds state) ∧
    (freeUnneededLoop cfg before rounds state).core = state.core ∧
    (freeUnneededLoop cfg before rounds state).pending = state.pending := by
  induction rounds generalizing state with
  | zero => exact ⟨accounted, rfl, rfl⟩
  | succ rounds ih =>
    cases htimeline : state.timeline with
    | nil =>
      rw [freeUnneededLoop, htimeline]
      exact ⟨accounted, rfl, rfl⟩
    | cons node rest =>
      rw [freeUnneededLoop, htimeline]
      dsimp only
      split
      · rename_i hfree
        have hunneeded : node.unneeded = true := by
          rw [Bool.or_eq_true, Bool.and_eq_true, decide_eq_true_iff] at hfree
          rcases hfree with ⟨_, unneeded⟩ | hearly
          · exact unneeded
          · refine accounted.head_unneeded htimeline fun member => ?_
            exact absurd (of_decide_eq_true hearly) (not_lt.mpr (hbefore node.entry member))
        rw [if_pos hunneeded]
        obtain ⟨hdeleted, hpending⟩ := accounted.delete htimeline hunneeded
        have hcore := timelineNodeDelete_core state
        have hbackup : (timelineNodeDelete state).backup = state.backup :=
          congrArg Core.backup hcore
        obtain ⟨hloop, hsame, hqueue⟩ := ih hdeleted (by rwa [hpending, hbackup])
        exact ⟨hloop, hsame.trans hcore, hqueue.trans hpending⟩
      · exact ⟨accounted, rfl, rfl⟩

theorem unneededBefore_le (queue : Queue cfg bound now state) :
    ∀ event ∈ pendingEntries state.pending ++ state.backup,
      unneededBefore cfg state ≤ event.time :=
    by
  have hsub : ∀ first : Entry, cfg.beforeEvent1 < first.time →
      first.time - cfg.beforeEvent1 ≤ first.time := by
    intro first hlt
    rw [Fin.le_def, Fin.sub_val_of_le hlt.le]
    exact Nat.sub_le _ _
  intro event member
  have hfirst : ∀ first : Entry, first.time ≤ event.time →
      (if cfg.beforeEvent1 < first.time then first.time - cfg.beforeEvent1
        else 0) ≤ event.time := by
    intro first hle
    split_ifs with hlt
    · exact (hsub first hlt).trans hle
    · exact Fin.zero_le _
  unfold unneededBefore
  split
  · exact Fin.zero_le _
  · cases hneeded : state.needed with
    | cons first others =>
      apply hfirst
      have hpast := accounted.past first (hneeded ▸ .head _)
      rcases List.mem_append.mp member with member | member
      · obtain ⟨node, hnode, rfl⟩ := List.mem_map.mp member
        exact hpast.trans (queue.waits node hnode).time_ge
      · have hordered := accounted.ordered
        have hmember := accounted.needed.mem_iff.mpr member
        rw [hneeded] at hordered hmember
        rcases List.mem_cons.mp hmember with rfl | hmember
        · exact le_rfl
        · exact (List.pairwise_cons.mp hordered).1 event hmember
    | nil =>
      have hbackup : state.backup = [] := by
        have hperm := accounted.needed
        rw [hneeded] at hperm
        exact List.nil_perm.mp hperm
      rw [hbackup, List.append_nil] at member
      obtain ⟨node, hnode, rfl⟩ := List.mem_map.mp member
      have hordered := queue.ordered
      cases hpending : state.pending with
      | nil =>
        rw [hpending] at hnode
        cases hnode
      | cons first others =>
        apply hfirst
        rw [hpending] at hnode hordered
        rcases List.mem_cons.mp hnode with rfl | hnode
        · exact le_rfl
        · exact ((List.pairwise_cons.mp hordered).1 node hnode).2

theorem free (queue : Queue cfg bound now state) :
    Accounted [] now (timelineFreeUnneeded cfg state) ∧
    (timelineFreeUnneeded cfg state).core = state.core ∧
    (timelineFreeUnneeded cfg state).pending = state.pending :=
  accounted.freeLoop (accounted.unneededBefore_le queue) _

end

end Accounted

theorem accounted_init : Accounted [] 0 State.init where
  ledger := ⟨List.nodup_nil, List.Perm.nil, ⟨0, rfl⟩, rfl⟩
  seqs := fun event member => by cases member
  needed := List.Perm.nil
  ordered := List.Pairwise.nil
  past := fun event member => by cases member

theorem Accounted.backup_nodup (accounted : Accounted [] now state) :
    state.backup.Nodup := by
  have hnodup := accounted.ledger.perm.nodup_iff.mp accounted.ledger.nodup
  exact (List.nodup_append.mp (List.nodup_append.mp (List.nodup_append.mp hnodup).1).2.1).2.1

theorem accounted_rule (htimeline : cfg.needTimeline = true) :
    QueueRule cfg (fun _ _ _ => True) (fun _ => Accounted []) where
  nodup accounted := accounted.backup_nodup
  tick _ accounted _ := accounted.congr rfl rfl rfl le_rfl
  skip accounted := accounted.congr rfl rfl rfl (Nat.le_succ _)
  insert accounted _ made := accounted.insert made.seq
  pending accounted _ hpending waits processed :=
    (accounted.pop hpending waits.time_ge).process htimeline processed
  plain _ hplain := by cases htimeline.symm.trans hplain
  free accounted queue _ := (accounted.free queue).1
  releases accounted released := accounted.releases htimeline released
  lost _ _ _ accounted _ := accounted.setLostList cfg _ _

theorem accounted_run (htimeline : cfg.needTimeline = true)
    (hrun : run (step cfg) actions State.init = some last) :
    Queued cfg (fun _ => Accounted []) last := by
  refine run_preserves _ ?_ ⟨0, 0, .init cfg, accounted_init⟩ hrun
  intro action state next holds hstep
  exact (accounted_rule htimeline).stepRule.step holds hstep fun _ _ _ _ => trivial

def pendingNode (state : State) (node : TimelineNode) : Bool :=
  state.pending.any (·.entry = node.entry)

def heldNode (state : State) (node : TimelineNode) : Bool :=
  state.backup.contains node.entry && state.needed.contains node.entry

def totalSize (nodes : List TimelineNode) : Nat :=
  (nodes.map (·.entry.size)).sum

structure BooksBalance (state : State) : Prop where
  unneeded : state.tlStat.unneeded = (state.timeline.filter (·.unneeded)).length
  unneededBytes : state.tlStat.unneededBytes = totalSize (state.timeline.filter (·.unneeded))
  pending : state.tlStat.pending = (state.timeline.filter (pendingNode state)).length
  pendingBytes : state.tlStat.pendingBytes = totalSize (state.timeline.filter (pendingNode state))
  memBytes : state.tlStat.memBytes = totalSize state.timeline
  entries : state.tlStat.new - state.tlStat.delete = state.timeline.length ∧
    state.tlStat.delete ≤ state.tlStat.new
  underflow : state.tlStat.underflow = false
  oneState : ∀ node ∈ state.timeline,
    [pendingNode state node, heldNode state node, node.unneeded].count true = 1

namespace Accounted

variable {now : U64} {state : State}

theorem parts (accounted : Accounted [] now state) :
    (entries state.timeline).Perm (pendingEntries state.pending ++
      state.backup ++ unneededEntries state.timeline) ∧
    (pendingEntries state.pending ++ state.backup ++
      unneededEntries state.timeline).Nodup :=
  ⟨accounted.ledger.perm, accounted.ledger.perm.nodup_iff.mp accounted.ledger.nodup⟩

theorem pendingNode_iff (node : TimelineNode) : pendingNode state node = true ↔
      node.entry ∈ pendingEntries state.pending := by
  rw [pendingNode, List.any_eq_true]
  constructor
  · rintro ⟨waiting, member, same⟩
    rw [← of_decide_eq_true same]
    exact List.mem_map_of_mem member
  · intro member
    obtain ⟨waiting, member, same⟩ := List.mem_map.mp member
    exact ⟨waiting, member, decide_eq_true same⟩

section

variable (accounted : Accounted [] now state)

include accounted

theorem heldNode_iff (node : TimelineNode) :
    heldNode state node = true ↔ node.entry ∈ state.backup := by
  rw [heldNode, Bool.and_eq_true, List.contains_iff_mem, List.contains_iff_mem,
    accounted.needed.mem_iff, and_self]

theorem unneeded_iff {node : TimelineNode} (member : node ∈ state.timeline) :
    node.unneeded = true ↔ node.entry ∈ unneededEntries state.timeline := by
  constructor
  · intro unneeded
    exact List.mem_map_of_mem (List.mem_filter.mpr ⟨member, unneeded⟩)
  · intro found
    obtain ⟨other, hother, same⟩ := List.mem_map.mp found
    obtain ⟨hmember, unneeded⟩ := List.mem_filter.mp hother
    rwa [← List.inj_on_of_nodup_map accounted.ledger.nodup hmember member same]

theorem pending_perm :
    (entries (state.timeline.filter (pendingNode state))).Perm
      (pendingEntries state.pending) := by
  obtain ⟨hperm, hnodup⟩ := accounted.parts
  have hpending := (List.nodup_append.mp (List.nodup_append.mp hnodup).1).1
  have hfiltered : (entries (state.timeline.filter (pendingNode state))).Nodup :=
    accounted.ledger.nodup.sublist (List.filter_sublist.map _)
  refine (List.perm_ext_iff_of_nodup hfiltered hpending).mpr fun event => ?_
  constructor
  · intro found
    obtain ⟨node, hnode, rfl⟩ := List.mem_map.mp found
    exact (pendingNode_iff node).mp (List.mem_filter.mp hnode).2
  · intro found
    have hmember : event ∈ entries state.timeline :=
      hperm.mem_iff.mpr (List.mem_append_left _ (List.mem_append_left _ found))
    obtain ⟨node, hnode, rfl⟩ := List.mem_map.mp hmember
    exact List.mem_map_of_mem (List.mem_filter.mpr ⟨hnode, (pendingNode_iff node).mpr found⟩)

theorem oneState {node : TimelineNode} (member : node ∈ state.timeline) :
    [pendingNode state node, heldNode state node, node.unneeded].count true =
      1 := by
  obtain ⟨hperm, hnodup⟩ := accounted.parts
  obtain ⟨hneeded, _, happart⟩ := List.nodup_append.mp hnodup
  obtain ⟨_, _, hdisjoint⟩ := List.nodup_append.mp hneeded
  have hentry : node.entry ∈ entries state.timeline := List.mem_map_of_mem member
  have hpendingBackup : ¬ (node.entry ∈ pendingEntries state.pending ∧ node.entry ∈ state.backup) :=
    fun both => hdisjoint _ both.1 _ both.2 rfl
  have hunneeded : node.entry ∈ pendingEntries state.pending ++ state.backup → node.entry ∉
      unneededEntries state.timeline := fun one two => happart _ one _ two rfl
  have hsome := hperm.mem_iff.mp hentry
  rw [List.mem_append] at hsome hunneeded
  rw [List.mem_append] at hsome
  rw [← pendingNode_iff, ← accounted.heldNode_iff,
    ← accounted.unneeded_iff member] at hsome hunneeded
  rw [← pendingNode_iff, ← accounted.heldNode_iff] at hpendingBackup
  revert hsome hunneeded hpendingBackup
  cases pendingNode state node <;> cases heldNode state node <;> cases node.unneeded <;> decide

theorem balance : BooksBalance state := by
  obtain ⟨delete, hstat⟩ := accounted.ledger.stat
  have hpending := accounted.pending_perm
  have hsizes : ∀ nodes : List TimelineNode, sizes (entries nodes) = totalSize nodes := by
    intro nodes
    rw [sizes, entries, List.map_map]
    rfl
  refine ⟨?_, ?_, ?_, ?_, ?_, ?_, ?_, fun node member => accounted.oneState member⟩
  · rw [hstat]
    exact List.length_map _
  · rw [hstat]
    exact hsizes _
  · rw [hstat]
    have hlength := hpending.length_eq
    rw [entries, pendingEntries, List.length_map, List.length_map] at hlength
    exact hlength.symm
  · rw [hstat, ← hsizes]
    exact (sizes_perm hpending).symm
  · rw [hstat]
    exact hsizes _
  · rw [hstat]
    exact ⟨Nat.add_sub_cancel_left _ _, Nat.le_add_right _ _⟩
  · rw [hstat]
    rfl

end

end Accounted

/-- With a timeline every event that was taken in is accounted for after every
run. -/
theorem timeline_books_balance {cfg : Config}
    (htimeline : cfg.needTimeline = true) {actions : List Action} {last : State}
    (hrun : run (step cfg) actions State.init = some last) :
    BooksBalance last := by
  obtain ⟨_, _, _, accounted⟩ := accounted_run htimeline hrun
  exact accounted.balance

def bookedActions : List Action :=
  [.sample (sampleAt 0 1 7), .sample (sampleAt 1 2 7), .lost 0 3 4,
    .sample (sampleAt 0 6 8), .sample (sampleAt 0 9 9)]

theorem timeline_books_balance_delay :
    ∃ last,
      run (step (delayConfig true 5 2)) bookedActions State.init = some last ∧
      last.timeline.length = 4 ∧
      last.pending.length = 1 ∧
      last.backup.length = 1 ∧
      BooksBalance last := by
  refine ⟨_, (Option.some_get ?_).symm, ?_, ?_, ?_,
    timeline_books_balance rfl (Option.some_get _).symm⟩
  all_goals decide +kernel

end PerfProf.MultiTrace
