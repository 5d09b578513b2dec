import PerfProf.MultiTrace.Queue

namespace PerfProf.MultiTrace

open PerfProf.Data

def processedUpTo (time : U64) (state : State) : Bool :=
  state.acts.all fun act => match act with
    | .handle event => event.time ≤ time
    | _ => true

def timelyStep (cfg : Config) : Action → State → Option State
  | .sample sample, state => step cfg (.sample sample) state
  | .lost ins startTime endTime, state =>
    if processedUpTo startTime state then
      step cfg (.lost ins startTime endTime) state
    else none

section Loop

@[simp] theorem dropBackup_backup (node : Node) (state : State) :
    (dropBackup node state).2.backup = state.backup := by
  unfold dropBackup
  split <;> rfl

@[simp] theorem dropBackup_needFindPrev (node : Node) (state : State) :
    (dropBackup node state).1.needFindPrev = node.needFindPrev := by
  unfold dropBackup
  split <;> rfl

@[simp] theorem dropBackup_needBackup (node : Node) (state : State) :
    (dropBackup node state).1.needBackup = false := by
  unfold dropBackup
  split_ifs with unwanted
  · rfl
  · simpa using unwanted

theorem eventLostLoop_backup (affect : cfg.lostAffect = .allEvent)
    (losts : List LostNode) (node : Node) (state : State) :
    (eventLostLoop cfg losts node state).2.2.backup ⊆ state.backup := by
  induction losts generalizing state with
  | nil => exact List.Subset.refl _
  | cons lost rest ih =>
    have hreclaim : (if lost.reclaim then state else
        lostReclaim cfg node.entry.ins lost.startTime state).backup ⊆
        state.backup := by
      split
      · exact List.Subset.refl _
      · rw [lostReclaim_all cfg affect]
        exact List.nil_subset _
    rw [eventLostLoop]
    split
    · exact List.Subset.refl _
    · split
      · rw [dropBackup_backup]
        exact List.Subset.refl _
      · dsimp only
        split
        · rw [dropBackup_backup]
          exact hreclaim
        · exact List.Subset.trans (ih _) hreclaim

theorem eventLostLoop_starts (cfg : Config) (losts : List LostNode)
    (node : Node) (state : State) :
    ((eventLostLoop cfg losts node state).1.map LostNode.startTime).Sublist
      (losts.map LostNode.startTime) := by
  induction losts generalizing state with
  | nil => exact List.Sublist.refl _
  | cons lost rest ih =>
    rw [eventLostLoop]
    split
    · exact List.Sublist.refl _
    · split
      · exact List.Sublist.refl _
      · dsimp only
        split
        · exact List.Sublist.refl _
        · exact (ih _).cons _

inductive Passage (node : Node) (lost : LostNode)
    (result : List LostNode × Node × State) : Prop where
  | ahead (member : lost ∈ result.1) (before : node.entry.time ≤ lost.startTime)
  | unused (member : lost ∈ result.1)
      (unpaired : result.2.1.needFindPrev = false)
      (unwanted : result.2.1.needBackup = false)
  | inside (member : { lost with reclaim := true } ∈ result.1)
      (after : lost.startTime < node.entry.time)
      (unpaired : result.2.1.needFindPrev = false)
      (unwanted : result.2.1.needBackup = false)
      (reclaimed : lost.reclaim = true ∨ result.2.2.backup = [])
  | past (after : lost.startTime < node.entry.time)
      (ended : lost.endTime ≤ node.entry.time)
      (reclaimed : lost.reclaim = true ∨ result.2.2.backup = [])

theorem eventLostLoop_passage (affect : cfg.lostAffect = .allEvent)
    (node : Node) (state : State)
    (sorted : (losts.map LostNode.startTime).Pairwise (· ≤ ·)) :
    ∀ lost ∈ losts, Passage node lost (eventLostLoop cfg losts node state) := by
  induction losts generalizing state with
  | nil => exact fun lost member => by cases member
  | cons head rest ih =>
    obtain ⟨hhead, hrest⟩ := List.pairwise_cons.mp sorted
    have hlater : ∀ lost ∈ head :: rest, head.startTime ≤ lost.startTime := by
      intro lost member
      rcases List.mem_cons.mp member with rfl | member
      · exact le_rfl
      · exact hhead _ (List.mem_map_of_mem member)
    intro lost member
    rw [eventLostLoop]
    split
    · rename_i hbefore
      exact .ahead member (hbefore.le.trans (hlater lost member))
    · rename_i hnotBefore
      split
      · rename_i hsame
        exact .ahead member (hsame.le.trans (hlater lost member))
      · rename_i hdifferent
        have hafter : head.startTime < node.entry.time :=
          lt_of_le_of_ne (not_lt.mp hnotBefore) (Ne.symm hdifferent)
        have hreclaimed : head.reclaim = true ∨ (if head.reclaim then state else
              lostReclaim cfg node.entry.ins head.startTime state).backup =
              [] := by
          split_ifs with hreclaim
          · exact .inl hreclaim
          · exact .inr (lostReclaim_all cfg affect _ _ _)
        dsimp only
        split
        · rcases List.mem_cons.mp member with rfl | member
          · exact .inside (.head _) hafter (dropBackup_needFindPrev _ _)
              (dropBackup_needBackup _ _) (by rwa [dropBackup_backup])
          · exact .unused (.tail _ member) (dropBackup_needFindPrev _ _) (dropBackup_needBackup _ _)
        · rename_i hended
          rcases List.mem_cons.mp member with rfl | member
          · refine .past hafter (not_lt.mp hended) ?_
            refine hreclaimed.imp_right fun hnone => ?_
            have hsubset := eventLostLoop_backup affect rest node (if lost.reclaim then state else
                lostReclaim cfg node.entry.ins lost.startTime state)
            rw [hnone] at hsubset
            exact List.subset_nil.mp hsubset
          · exact ih _ hrest lost member

end Loop

structure Quiet (state next : State) : Prop where
  backup : next.backup.Sublist state.backup
  acts : ∃ acts, next.acts = state.acts ++ acts ∧ ∀ prev cur time, .two prev cur time ∉ acts

namespace Quiet

theorem of_eq (hbackup : second.backup = first.backup)
    (hacts : second.acts = first.acts) : Quiet first second where
  backup := hbackup ▸ List.Sublist.refl _
  acts := ⟨[], by rw [hacts, List.append_nil], fun _ _ _ => List.not_mem_nil⟩

theorem trans (one : Quiet first second) (two : Quiet second third) :
    Quiet first third := by
  obtain ⟨acts, hacts, hnone⟩ := one.acts
  obtain ⟨more, hmore, hnoMore⟩ := two.acts
  refine ⟨two.backup.trans one.backup, acts ++ more, ?_, ?_⟩
  · rw [hmore, hacts, List.append_assoc]
  · intro prev cur time member
    rcases List.mem_append.mp member with member | member
    · exact hnone prev cur time member
    · exact hnoMore prev cur time member

theorem log (act : Act) (hother : ∀ prev cur time, act ≠ .two prev cur time)
    (state : State) : Quiet state (state.log act) where
  backup := List.Sublist.refl _
  acts := ⟨[act], rfl, fun prev cur time member =>
    hother prev cur time (List.mem_singleton.mp member).symm⟩

theorem remove (cfg : Config) (event : Entry) (state : State) :
    Quiet state (backupRemove cfg event state) where
  backup := by
    rw [backupRemove_backup]
    exact List.erase_sublist
  acts := by
    refine ⟨[.remove event], backupRemove_acts cfg event state, ?_⟩
    intro prev cur time member
    cases List.mem_singleton.mp member

theorem releases (released : Releases cfg first second) :
    Quiet first second := by
  apply released.preserves (Quiet first) (of_eq rfl rfl)
  · intro state left reason time _ quiet
    exact quiet.trans (log _ (fun _ _ _ same => by cases same) state)
  · exact fun state event _ quiet => quiet.trans (remove cfg event state)

theorem setLostList (cfg : Config) (ins : Nat) (lost : List LostNode)
    (state : State) : Quiet state (setLostList cfg ins lost state) := by
  unfold MultiTrace.setLostList
  split
  · exact of_eq rfl rfl
  · exact of_eq rfl rfl

theorem demoted (outcome : LostOutcome node first result) :
    Quiet first result.2 := by
  rcases outcome.state_eq with ⟨same, _⟩ | ⟨same, _⟩
  · rw [same]
    exact of_eq rfl rfl
  · rw [same]
    exact of_eq rfl rfl

theorem mem_acts (quiet : Quiet first second) (member : act ∈ first.acts) :
    act ∈ second.acts := by
  obtain ⟨acts, hacts, _⟩ := quiet.acts
  rw [hacts]
  exact List.mem_append_left acts member

end Quiet

structure Handled (bound : Nat) (state : State) : Prop where
  nodup : state.backup.Nodup
  seqs : ∀ event ∈ state.backup, event.seq < bound
  backup : ∀ event ∈ state.backup, .handle event ∈ state.acts
  calls : ∀ prev cur time, .two prev cur time ∈ state.acts →
    .handle cur ∈ state.acts ∧ prev.time < cur.time

namespace Handled

theorem init : Handled 0 State.init where
  nodup := List.nodup_nil
  seqs := fun event member => by cases member
  backup := fun event member => by cases member
  calls := fun prev cur time member => by cases member

section

variable (handled : Handled bound state)

include handled

theorem mono (le : bound ≤ larger) : Handled larger state :=
  ⟨handled.nodup, fun event member => (handled.seqs event member).trans_le le,
    handled.backup, handled.calls⟩

theorem quiet (quiet : Quiet state next) : Handled bound next := by
  obtain ⟨hbackup, acts, hacts, hnone⟩ := quiet
  refine ⟨handled.nodup.sublist hbackup, ?_, ?_, ?_⟩
  · exact fun event member => handled.seqs event (hbackup.subset member)
  · intro event member
    rw [hacts]
    exact List.mem_append_left _ (handled.backup event (hbackup.subset member))
  · intro prev cur time member
    rw [hacts] at member ⊢
    rcases List.mem_append.mp member with member | member
    · obtain ⟨hhandle, horder⟩ := handled.calls prev cur time member
      exact ⟨List.mem_append_left _ hhandle, horder⟩
    · exact absurd member (hnone prev cur time)

theorem pair (hhandle : .handle cur ∈ state.acts)
    (before : prev.time < cur.time) (time : U64) :
    Handled bound (state.log (.two prev cur time)) := by
  refine ⟨handled.nodup, handled.seqs, ?_, ?_⟩
  · exact fun event member => List.mem_append_left _ (handled.backup event member)
  · intro first second at_ member
    rcases List.mem_append.mp member with member | member
    · obtain ⟨hfirst, hsecond⟩ := handled.calls first second at_ member
      exact ⟨List.mem_append_left _ hfirst, hsecond⟩
    · cases List.mem_singleton.mp member
      exact ⟨List.mem_append_left _ hhandle, before⟩

theorem new (cfg : Config) (hhandle : .handle event ∈ state.acts)
    (hseq : bound ≤ event.seq) :
    Handled (event.seq + 1) (backupNodeNew cfg event state) := by
  have hmember : ∀ other ∈ (backupNodeNew cfg event state).backup,
      other = event ∨ other ∈ state.backup := by
    intro other member
    rwa [backupNodeNew_backup, mem_backupInsert] at member
  have hacts := backupNodeNew_acts cfg event state
  refine ⟨?_, ?_, ?_, ?_⟩
  · rw [backupNodeNew_backup]
    refine backupInsert_nodup cfg handled.nodup fun member => ?_
    have hlt := handled.seqs event member
    omega
  · intro other member
    rcases hmember other member with rfl | member
    · exact Nat.lt_succ_self _
    · have hlt := handled.seqs other member
      omega
  · intro other member
    rw [hacts]
    rcases hmember other member with rfl | member
    · exact List.mem_append_left _ hhandle
    · exact List.mem_append_left _ (handled.backup other member)
  · intro prev cur time member
    rw [hacts] at member ⊢
    rcases List.mem_append.mp member with member | member
    · obtain ⟨hfirst, hsecond⟩ := handled.calls prev cur time member
      exact ⟨List.mem_append_left _ hfirst, hsecond⟩
    · cases List.mem_singleton.mp member

end

end Handled

def Inside (startTime endTime time : U64) : Prop :=
  startTime < time ∧ time < endTime

def Unaffected (startTime endTime : U64) (prev cur : Entry) : Prop :=
  ¬ (prev.time ≤ startTime ∧ startTime < cur.time) ∧
    ¬ Inside startTime endTime prev.time ∧ ¬ Inside startTime endTime cur.time

def Passed (startTime now : U64) (state : State) : Prop :=
  startTime < now ∧ ∀ event ∈ state.backup, startTime < event.time

structure Tracked (startTime endTime now : U64) (state : State) : Prop where
  calls : ∀ prev cur time, .two prev cur time ∈ state.acts → Unaffected startTime endTime prev cur
  outside : ∀ event ∈ state.backup, ¬ Inside startTime endTime event.time
  kept : (∃ lost ∈ state.timelineLost, lost.startTime = startTime ∧ lost.endTime = endTime ∧
      (lost.reclaim = true → Passed startTime now state)) ∨
    (Passed startTime now state ∧ endTime ≤ now)

namespace Passed

theorem mono (passed : Passed startTime now state) (hnow : now ≤ later)
    (hbackup : next.backup ⊆ state.backup) : Passed startTime later next :=
  ⟨passed.1.trans_le hnow, fun event member => passed.2 event (hbackup member)⟩

theorem new (passed : Passed startTime now state) (cfg : Config)
    (htime : event.time = now) :
    Passed startTime now (backupNodeNew cfg event state) := by
  refine ⟨passed.1, fun other member => ?_⟩
  rw [backupNodeNew_backup, mem_backupInsert] at member
  rcases member with rfl | member
  · exact htime ▸ passed.1
  · exact passed.2 other member

end Passed

namespace Tracked

variable {startTime endTime now : U64} {state next : State}

section

variable (tracked : Tracked startTime endTime now state)

include tracked

theorem calls_quiet (quiet : Quiet state next) (prev cur : Entry) (time : U64)
    (member : .two prev cur time ∈ next.acts) :
    Unaffected startTime endTime prev cur := by
  obtain ⟨_, acts, hacts, hnone⟩ := quiet
  rw [hacts] at member
  rcases List.mem_append.mp member with member | member
  · exact tracked.calls prev cur time member
  · exact absurd member (hnone prev cur time)

theorem quiet (quiet : Quiet state next)
    (hlost : next.timelineLost = state.timelineLost) :
    Tracked startTime endTime now next := by
  have hbackup := quiet.backup.subset
  refine ⟨tracked.calls_quiet quiet, fun event member => tracked.outside event (hbackup member), ?_⟩
  rw [hlost]
  rcases tracked.kept with ⟨lost, member, hstart, hend, hpassed⟩ | ⟨hpassed, hend⟩
  · exact .inl ⟨lost, member, hstart, hend,
      fun reclaimed => (hpassed reclaimed).mono le_rfl hbackup⟩
  · exact .inr ⟨hpassed.mono le_rfl hbackup, hend⟩

theorem pair (unaffected : Unaffected startTime endTime prev cur) (time : U64) :
    Tracked startTime endTime now (state.log (.two prev cur time)) := by
  refine ⟨?_, tracked.outside, tracked.kept⟩
  intro first second at_ member
  rcases List.mem_append.mp member with member | member
  · exact tracked.calls first second at_ member
  · cases List.mem_singleton.mp member
    exact unaffected

theorem new (cfg : Config) (htime : event.time = now)
    (outside : ¬ Inside startTime endTime event.time) :
    Tracked startTime endTime now (backupNodeNew cfg event state) := by
  have hlost : (backupNodeNew cfg event state).timelineLost =
      state.timelineLost := by
    unfold backupNodeNew
    cases cfg.needTimeline <;> rfl
  refine ⟨?_, ?_, ?_⟩
  · intro prev cur time member
    rw [backupNodeNew_acts] at member
    rcases List.mem_append.mp member with member | member
    · exact tracked.calls prev cur time member
    · cases List.mem_singleton.mp member
  · intro other member
    rw [backupNodeNew_backup, mem_backupInsert] at member
    rcases member with rfl | member
    · exact outside
    · exact tracked.outside other member
  · rw [hlost]
    rcases tracked.kept with ⟨lost, member, hstart, hend, hpassed⟩ | ⟨hpassed, hend⟩
    · exact .inl ⟨lost, member, hstart, hend, fun reclaimed => (hpassed reclaimed).new cfg htime⟩
    · exact .inr ⟨hpassed.new cfg htime, hend⟩

end

def Clear (startTime endTime time : U64) (state : State) : Prop :=
  ¬ Inside startTime endTime time ∧
    (startTime < time → ∀ prev ∈ state.backup, startTime < prev.time)

theorem demoted (affect : cfg.lostAffect = .allEvent)
    (tracked : Tracked startTime endTime now state)
    (sorted : (state.timelineLost.map LostNode.startTime).Pairwise (· ≤ ·))
    (hnow : now ≤ node.entry.time)
    (hloop : eventLostLoop cfg state.timelineLost node before = (losts, result))
    (quiet : Quiet state next) (hbackup : next.backup = result.2.backup)
    (hlost : next.timelineLost = losts) :
    Tracked startTime endTime node.entry.time next ∧
    (result.1.needFindPrev = true ∨ result.1.needBackup = true →
      Clear startTime endTime node.entry.time next) := by
  have hsubset := quiet.backup.subset
  have hcalls := tracked.calls_quiet quiet
  have houtside : ∀ event ∈ next.backup, ¬ Inside startTime endTime event.time :=
    fun event member => tracked.outside event (hsubset member)
  have hclear : Passed startTime node.entry.time next →
      endTime ≤ node.entry.time → Clear startTime endTime node.entry.time next :=
    fun passed ended => ⟨fun inside => absurd inside.2 (not_lt.mpr ended), fun _ => passed.2⟩
  have hunused : result.1.needFindPrev = false → result.1.needBackup = false →
      result.1.needFindPrev = true ∨ result.1.needBackup = true →
      Clear startTime endTime node.entry.time next := by
    intro unpaired unwanted used
    rw [unpaired, unwanted] at used
    rcases used with used | used <;> cases used
  rcases tracked.kept with ⟨lost, member, rfl, rfl, hpassed⟩ | ⟨hpassed, hend⟩
  · have hreclaimed : lost.startTime < node.entry.time →
        lost.reclaim = true ∨ result.2.backup = [] →
        Passed lost.startTime node.entry.time next := by
      intro after reclaimed
      rcases reclaimed with reclaimed | hnone
      · exact (hpassed reclaimed).mono hnow hsubset
      · refine ⟨after, fun event member => ?_⟩
        rw [hbackup, hnone] at member
        cases member
    have passage := eventLostLoop_passage affect node before sorted lost member
    rw [hloop] at passage
    cases passage with
    | ahead member before =>
      refine ⟨⟨hcalls, houtside, .inl ⟨lost, hlost ▸ member, rfl, rfl, ?_⟩⟩, ?_⟩
      · exact fun reclaimed => (hpassed reclaimed).mono hnow hsubset
      · exact fun _ => ⟨fun inside => absurd inside.1 (not_lt.mpr before),
          fun after => absurd after (not_lt.mpr before)⟩
    | unused member unpaired unwanted =>
      refine ⟨⟨hcalls, houtside, .inl ⟨lost, hlost ▸ member, rfl, rfl, ?_⟩⟩, ?_⟩
      · exact fun reclaimed => (hpassed reclaimed).mono hnow hsubset
      · exact hunused unpaired unwanted
    | inside member after unpaired unwanted reclaimed =>
      refine ⟨⟨hcalls, houtside, .inl ⟨{ lost with reclaim := true },
        hlost ▸ member, rfl, rfl, ?_⟩⟩, ?_⟩
      · exact fun _ => hreclaimed after reclaimed
      · exact hunused unpaired unwanted
    | past after ended reclaimed =>
      have passed := hreclaimed after reclaimed
      exact ⟨⟨hcalls, houtside, .inr ⟨passed, ended⟩⟩, fun _ => hclear passed ended⟩
  · have passed := hpassed.mono hnow hsubset
    have ended := hend.trans hnow
    exact ⟨⟨hcalls, houtside, .inr ⟨passed, ended⟩⟩, fun _ => hclear passed ended⟩

end Tracked

structure Guarded (losses : List (U64 × U64)) (bound : Nat) (now : U64)
    (state : State) : Prop where
  handled : Handled bound state
  sorted : (state.timelineLost.map LostNode.startTime).Pairwise (· ≤ ·)
  tracked : ∀ loss ∈ losses, Tracked loss.1 loss.2 now state

theorem backupRemove_timelineLost (cfg : Config) (event : Entry)
    (state : State) :
    (backupRemove cfg event state).timelineLost = state.timelineLost := by
  unfold backupRemove perfEventBackupNodeDelete
  cases cfg.needTimeline <;> rfl

theorem backupNodeNew_timelineLost (cfg : Config) (event : Entry)
    (state : State) :
    (backupNodeNew cfg event state).timelineLost = state.timelineLost := by
  unfold backupNodeNew
  cases cfg.needTimeline <;> rfl

namespace Guarded

variable {losses : List (U64 × U64)} {bound : Nat} {now : U64}
  {state next : State}

section

variable (guarded : Guarded losses bound now state)

include guarded

theorem quiet (quiet : Quiet state next)
    (hlost : next.timelineLost = state.timelineLost) :
    Guarded losses bound now next :=
  ⟨guarded.handled.quiet quiet, hlost ▸ guarded.sorted,
    fun loss member => (guarded.tracked loss member).quiet quiet hlost⟩

theorem core (hcore : next.core = state.core) : Guarded losses bound now next :=
  guarded.quiet (.of_eq (congrArg Core.backup hcore) (congrArg Core.acts hcore))
    (congrArg Core.timelineLost hcore)

theorem remove (cfg : Config) (event : Entry) :
    Guarded losses bound now (backupRemove cfg event state) :=
  guarded.quiet (.remove cfg event state) (backupRemove_timelineLost cfg event state)

theorem releases (released : Releases cfg state next) :
    Guarded losses bound now next := by
  apply released.preserves (Guarded losses bound now) guarded
  · intro state left reason time _ guarded
    exact guarded.quiet (.log _ (fun _ _ _ same => by cases same) state) rfl
  · exact fun _ event _ guarded => guarded.remove cfg event

theorem free : Guarded losses bound now (timelineFreeUnneeded cfg state) := by
  apply freeUnneeded_preserves (Guarded losses bound now) _ _ _ guarded
  · exact fun _ event _ guarded => guarded.remove cfg event
  · exact fun _ guarded => guarded.core rfl
  · exact fun _ guarded => guarded.core (timelineNodeDelete_core _)

end

section

variable (guarded : Guarded losses bound now state)

include guarded

theorem call (member : prev ∈ state.backup)
    (hhandle : .handle node.entry ∈ state.acts)
    (clear : ∀ loss ∈ losses,
      Tracked.Clear loss.1 loss.2 node.entry.time state) :
    Guarded losses bound now (callTwo cfg prev node state) := by
  unfold callTwo
  split_ifs with horder
  · rw [Bool.and_eq_true, decide_eq_true_iff] at horder
    refine ⟨guarded.handled.pair hhandle horder.2 _, guarded.sorted, ?_⟩
    intro loss hloss
    have tracked := guarded.tracked loss hloss
    obtain ⟨houtside, hafter⟩ := clear loss hloss
    refine tracked.pair ⟨?_, tracked.outside prev member, houtside⟩ _
    rintro ⟨hprev, hcur⟩
    exact absurd (hafter hcur prev member) (not_lt.mpr hprev)
  · exact guarded

theorem new (cfg : Config) (hhandle : .handle event ∈ state.acts)
    (hseq : bound ≤ event.seq) (htime : event.time = now)
    (outside : ∀ loss ∈ losses, ¬ Inside loss.1 loss.2 event.time) :
    Guarded losses (event.seq + 1) now (backupNodeNew cfg event state) :=
  ⟨guarded.handled.new cfg hhandle hseq,
    backupNodeNew_timelineLost cfg event state ▸ guarded.sorted,
    fun loss member => (guarded.tracked loss member).new cfg htime (outside loss member)⟩

theorem mono (le : bound ≤ larger) : Guarded losses larger now state :=
  ⟨guarded.handled.mono le, guarded.sorted, guarded.tracked⟩

theorem called (outcome : TwoOutcome cfg node state result)
    (hhandle : .handle node.entry ∈ state.acts)
    (clear : node.needFindPrev = true →
      ∀ loss ∈ losses, Tracked.Clear loss.1 loss.2 node.entry.time state) :
    Guarded losses bound now result.2 ∧ .handle node.entry ∈ result.2.acts := by
  have hcall : ∀ prev, .handle node.entry ∈ (callTwo cfg prev node state).acts := by
    intro prev
    unfold callTwo
    split
    · exact List.mem_append_left _ hhandle
    · exact hhandle
  cases outcome with
  | skip => exact ⟨guarded, hhandle⟩
  | first =>
    have quiet := Quiet.log (.first node.entry) (fun _ _ _ same => by cases same) state
    exact ⟨guarded.quiet quiet rfl, quiet.mem_acts hhandle⟩
  | keep prev member same find stays => exact ⟨guarded.call member hhandle (clear find), hcall prev⟩
  | take prev member same find =>
    exact ⟨(guarded.call member hhandle (clear find)).remove cfg prev,
      (Quiet.remove cfg prev _).mem_acts (hcall prev)⟩

theorem backedUp (outcome : BackupOutcome cfg node state result)
    (hhandle : .handle node.entry ∈ state.acts) (hseq : bound ≤ node.entry.seq)
    (htime : node.entry.time = now)
    (outside : node.needBackup = true →
      ∀ loss ∈ losses, ¬ Inside loss.1 loss.2 node.entry.time) :
    Guarded losses (node.entry.seq + 1) now result.2 := by
  have hle : bound ≤ node.entry.seq + 1 := by omega
  cases outcome with
  | skip => exact guarded.mono hle
  | stale => exact (guarded.mono hle).core rfl
  | replace exist wanted found =>
    exact (guarded.remove cfg exist).new cfg ((Quiet.remove cfg exist state).mem_acts hhandle) hseq
      htime (outside wanted)
  | fresh wanted missing => exact guarded.new cfg hhandle hseq htime (outside wanted)

end

theorem process (affect : cfg.lostAffect = .allEvent)
    (guarded : Guarded losses bound now state) (hseq : bound ≤ node.entry.seq)
    (hnow : now ≤ node.entry.time) (processed : Processed cfg node state next) :
    Guarded losses (node.entry.seq + 1) node.entry.time next := by
  cases processed with
  | intro lostLoop releases lostOutcome twoOutcome backupOutcome =>
    rename_i released losts demoted paired result
    have hafter := ((Quiet.releases releases).trans (Quiet.demoted lostOutcome)).trans
      (.setLostList cfg demoted.1.entry.ins losts demoted.2)
    have quiet := (Quiet.log (.handle node.entry)
      (fun _ _ _ same => by cases same) state).trans hafter
    have hentry := lostOutcome.kept.1
    have hnoted : .handle demoted.1.entry ∈ (state.log (.handle node.entry)).acts := by
      rw [hentry]
      exact List.mem_append_right _ (.head _)
    have hhandle := hafter.mem_acts hnoted
    generalize hready : setLostList cfg demoted.1.entry.ins losts demoted.2 =
      ready at quiet hhandle twoOutcome
    have hlost : ready.timelineLost = losts := by rw [← hready, setLostList, affect]
    have hbackup : ready.backup = demoted.2.backup := by rw [← hready, setLostList, affect]
    rw [lostList, affect] at lostLoop
    have hdemoted := fun loss member =>
      (guarded.tracked loss member).demoted affect guarded.sorted hnow lostLoop quiet hbackup hlost
    have hguarded : Guarded losses bound node.entry.time ready := by
      refine ⟨guarded.handled.quiet quiet, ?_, fun loss member => (hdemoted loss member).1⟩
      have hstarts := eventLostLoop_starts cfg state.timelineLost node
        (state.log (.handle node.entry))
      rw [lostLoop] at hstarts
      rw [hlost]
      exact guarded.sorted.sublist hstarts
    rw [← hentry] at hdemoted hguarded hseq ⊢
    obtain ⟨hpaired, hstill⟩ := hguarded.called twoOutcome hhandle
      fun find loss member => (hdemoted loss member).2 (.inl find)
    exact hpaired.backedUp backupOutcome hstill hseq rfl
      fun wanted loss member => ((hdemoted loss member).2 (.inr wanted)).1

end Guarded

theorem mem_insertLost :
    lost ∈ insertLost new losts ↔ lost = new ∨ lost ∈ losts := by
  induction losts with
  | nil => simp [insertLost]
  | cons head tail ih =>
    rw [insertLost]
    split
    · exact List.mem_cons
    · rw [List.mem_cons, ih, List.mem_cons]
      exact or_left_comm

theorem insertLost_sorted (new : LostNode)
    (sorted : (losts.map LostNode.startTime).Pairwise (· ≤ ·)) :
    ((insertLost new losts).map LostNode.startTime).Pairwise (· ≤ ·) := by
  induction losts with
  | nil => exact List.pairwise_singleton _ _
  | cons head tail ih =>
    obtain ⟨hhead, htail⟩ := List.pairwise_cons.mp sorted
    rw [insertLost]
    split
    · rename_i hbefore
      refine List.pairwise_cons.mpr ⟨?_, sorted⟩
      intro time member
      rcases List.mem_cons.mp member with rfl | member
      · exact hbefore.le
      · exact hbefore.le.trans (hhead time member)
    · rename_i hafter
      refine List.pairwise_cons.mpr ⟨?_, ih htail⟩
      intro time htime
      obtain ⟨lost, member, rfl⟩ := List.mem_map.mp htime
      rcases mem_insertLost.mp member with rfl | member
      · exact not_lt.mp hafter
      · exact hhead _ (List.mem_map_of_mem member)

def State.addLost (lost : LostNode) (state : State) : State :=
  { state with timelineLost := insertLost lost state.timelineLost }

namespace Guarded

theorem addLost (guarded : Guarded losses bound now state) (lost : LostNode) :
    Guarded losses bound now (state.addLost lost) := by
  refine ⟨guarded.handled.quiet (.of_eq rfl rfl), insertLost_sorted lost guarded.sorted, ?_⟩
  intro loss hloss
  have tracked := guarded.tracked loss hloss
  refine ⟨tracked.calls, tracked.outside, tracked.kept.imp_left ?_⟩
  rintro ⟨other, member, hother⟩
  exact ⟨other, mem_insertLost.mpr (.inr member), hother⟩

theorem track (guarded : Guarded [] bound now state) (lost : LostNode)
    (hnew : lost.reclaim = false)
    (htimely : processedUpTo lost.startTime state = true) :
    Guarded [(lost.startTime, lost.endTime)] bound now
      (state.addLost lost) := by
  have hhandled : ∀ event, .handle event ∈ state.acts → event.time ≤ lost.startTime := by
    intro event member
    simpa using List.all_eq_true.mp htimely _ member
  have houtside : ∀ {time}, time ≤ lost.startTime → ¬ Inside lost.startTime lost.endTime time :=
    fun before inside => absurd inside.1 (not_lt.mpr before)
  have hadded := guarded.addLost lost
  refine ⟨hadded.handled, hadded.sorted, ?_⟩
  intro loss member
  rw [List.mem_singleton.mp member]
  refine ⟨?_, ?_, .inl ⟨lost, mem_insertLost.mpr (.inl rfl), rfl, rfl, ?_⟩⟩
  · intro prev cur time member
    obtain ⟨hhandle, horder⟩ := guarded.handled.calls prev cur time member
    have hcur := hhandled cur hhandle
    exact ⟨fun spans => absurd spans.2 (not_lt.mpr hcur),
      houtside (horder.le.trans hcur), houtside hcur⟩
  · exact fun event member => houtside (hhandled event (guarded.handled.backup event member))
  · intro reclaimed
    cases hnew.symm.trans reclaimed

end Guarded

section Runs

variable {cfg : Config} (affect : cfg.lostAffect = .allEvent)

include affect

theorem setLostList_addLost (lost : LostNode) (ins : Nat) (state : State) :
    setLostList cfg ins (queueLost cfg lost (lostList cfg ins state)) state =
      state.addLost lost := by
  rw [setLostList, queueLost, lostList, affect]
  rfl

theorem guarded_rule (losses : List (U64 × U64)) :
    QueueRule cfg (fun _ _ _ => True) (Guarded losses) where
  nodup guarded := guarded.handled.nodup
  tick _ guarded _ := guarded.quiet (.of_eq rfl rfl) rfl
  skip guarded := guarded.quiet (.of_eq rfl rfl) rfl
  insert guarded _ _ := guarded.quiet (.of_eq (congrArg Core.backup (timelineNodeNew_core _ _ _))
      (congrArg Core.acts (timelineNodeNew_core _ _ _)))
    (congrArg Core.timelineLost (timelineNodeNew_core _ _ _))
  pending guarded _ _ waits processed :=
    (guarded.core (popPending_core _ _ _)).process affect waits.seq_ge waits.time_ge processed
  plain {bound now state _ _} guarded _ _ waits processed := by
    have hnext : Guarded losses bound now state.nextSeq := guarded.quiet (.of_eq rfl rfl) rfl
    exact hnext.process affect waits.seq_ge waits.time_ge processed
  free guarded _ _ := guarded.free
  releases guarded released := guarded.releases released
  lost ins startTime endTime guarded _ := by
    rw [setLostList_addLost affect]
    exact guarded.addLost _

theorem guarded_run (holds : Queued cfg (Guarded losses) state)
    (hrun : run (timelyStep cfg) actions state = some last) :
    Queued cfg (Guarded losses) last := by
  refine run_preserves _ ?_ holds hrun
  intro action state next holds hstep
  have hplain : step cfg action state = some next := by
    cases action with
    | sample sample => exact hstep
    | lost ins startTime endTime => exact (Option.ite_none_right_eq_some.mp hstep).2
  exact (guarded_rule affect losses).stepRule.step holds hplain fun _ _ _ _ => trivial

end Runs

/-- Events that are paired are not affected by any loss. -/
theorem pairs_avoid_losses {cfg : Config} (horder : cfg.usingOrder = true)
    (affect : cfg.lostAffect = .allEvent) {actions : List Action} {last : State}
    (hrun : run (timelyStep cfg) actions State.init = some last)
    {ins : Nat} {startTime endTime : U64}
    (hlost : .lost ins startTime endTime ∈ actions) (prev cur : Entry)
    (time : U64) (hcall : .two prev cur time ∈ last.acts) :
    Unaffected startTime endTime prev cur := by
  obtain ⟨before, after, rfl⟩ := List.append_of_mem hlost
  obtain ⟨middle, hbefore, hafter⟩ := run_append.mp hrun
  obtain ⟨next, hstep, hafter⟩ := run_cons.mp hafter
  have hinit : Queued cfg (Guarded []) State.init :=
    ⟨0, 0, .init cfg, .init, List.Pairwise.nil, fun _ member => by cases member⟩
  obtain ⟨bound, now, queue, guarded⟩ := guarded_run affect hinit hbefore
  obtain ⟨htimely, hnext⟩ := Option.ite_none_right_eq_some.mp hstep
  have hadded : next = middle.addLost ⟨ins, false, startTime, endTime⟩ := by
    rw [step, multiTraceLost, horder] at hnext
    cases hnext
    exact setLostList_addLost affect _ _ _
  have htracked : Queued cfg (Guarded [(startTime, endTime)]) next := by
    rw [hadded]
    exact ⟨bound, now, queue.frame rfl, guarded.track ⟨ins, false, startTime, endTime⟩ rfl htimely⟩
  obtain ⟨_, _, _, hlast⟩ := guarded_run affect htracked hafter
  exact (hlast.tracked _ (.head _)).calls prev cur time hcall

def lossyActions : List Action :=
  [.sample (sampleAt 0 1 7), .lost 0 1 5, .sample (sampleAt 1 6 7),
    .sample (sampleAt 0 7 7), .sample (sampleAt 1 8 7)]

theorem pairs_avoid_losses_delay :
    ∃ last prev cur,
      run (timelyStep (delayConfig true 0 0)) lossyActions State.init =
        some last ∧
      .two prev cur 8 ∈ last.acts ∧
      prev.time = 7 ∧
      Unaffected 1 5 prev cur := by
  refine ⟨_, ⟨2, 7, 7, ⟨0, false, true, false⟩, none, 0, 8⟩,
    ⟨3, 8, 7, ⟨1, false, true, false⟩, none, 0, 8⟩, (Option.some_get ?_).symm, ?_, rfl,
    @pairs_avoid_losses (delayConfig true 0 0) rfl rfl lossyActions _ (Option.some_get ?_).symm _ _
      _ (.tail _ (.head _)) _ _ 8 ?_⟩
  all_goals decide +kernel

end PerfProf.MultiTrace
