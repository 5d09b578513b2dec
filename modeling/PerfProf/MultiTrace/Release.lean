import PerfProf.MultiTrace.Sample

namespace PerfProf.MultiTrace

inductive Releases (cfg : Config) : State → State → Prop where
  | refl (state : State) : Releases cfg state state
  | remaining (left : Entry) (reason : RemainingReason) (time : U64)
      {state last : State} (member : left ∈ state.backup)
      (rest : Releases cfg (state.log (.remaining left reason time)) last) :
      Releases cfg state last
  | remove (event : Entry) {state last : State} (member : event ∈ state.backup)
      (rest : Releases cfg (backupRemove cfg event state) last) :
      Releases cfg state last

namespace Releases

variable {cfg : Config}

theorem trans (one : Releases cfg first second)
    (two : Releases cfg second third) : Releases cfg first third := by
  induction one with
  | refl => exact two
  | remaining left reason time member _ ih => exact .remaining left reason time member (ih two)
  | remove event member _ ih => exact .remove event member (ih two)

theorem preserves (Inv : State → Prop) (releases : Releases cfg first second)
    (holds : Inv first)
    (hremaining : ∀ state left reason time, left ∈ state.backup →
      Inv state →
      Inv (state.log (.remaining left reason time)))
    (hremove : ∀ state event,
      event ∈ state.backup → Inv state → Inv (backupRemove cfg event state)) :
    Inv second := by
  induction releases with
  | refl => exact holds
  | remaining left reason time member _ ih => exact ih (hremaining _ left reason time member holds)
  | remove event member _ ih => exact ih (hremove _ event member holds)

end Releases

section Fields

variable (cfg : Config) (event : Entry) (state : State)

@[simp] theorem backupRemove_backup :
    (backupRemove cfg event state).backup = state.backup.erase event := by
  unfold backupRemove perfEventBackupNodeDelete
  cases cfg.needTimeline <;> rfl

@[simp] theorem backupRemove_acts :
    (backupRemove cfg event state).acts = state.acts ++ [.remove event] := by
  unfold backupRemove perfEventBackupNodeDelete
  cases cfg.needTimeline <;> rfl

@[simp] theorem backupNodeNew_backup : (backupNodeNew cfg event state).backup =
      backupInsert cfg event state.backup := by
  unfold backupNodeNew
  cases cfg.needTimeline <;> rfl

@[simp] theorem backupNodeNew_acts :
    (backupNodeNew cfg event state).acts = state.acts ++ [.backup event] := by
  unfold backupNodeNew
  cases cfg.needTimeline <;> rfl

end Fields

theorem backupInsert_perm (cfg : Config) (event : Entry) (backup : List Entry) :
    (backupInsert cfg event backup).Perm (event :: backup) := by
  induction backup with
  | nil => exact List.Perm.refl _
  | cons head tail ih =>
    rw [backupInsert]
    split
    · exact List.Perm.refl _
    · exact (ih.cons head).trans (List.Perm.swap event head tail)

theorem mem_backupInsert (cfg : Config) (event other : Entry)
    (backup : List Entry) :
    other ∈ backupInsert cfg event backup ↔ other = event ∨ other ∈ backup :=
  (backupInsert_perm cfg event backup).mem_iff.trans List.mem_cons

theorem backupInsert_nodup (cfg : Config) (nodup : backup.Nodup)
    (fresh : event ∉ backup) : (backupInsert cfg event backup).Nodup :=
  (backupInsert_perm cfg event backup).nodup_iff.mpr (List.nodup_cons.mpr ⟨fresh, nodup⟩)

section Functions

variable (cfg : Config) {state : State}

theorem releases_callRemaining (member : left ∈ state.backup)
    (reason : RemainingReason) (time : U64) :
    Releases cfg state
      (multiTraceCallRemaining cfg left reason time state).2 := by
  unfold multiTraceCallRemaining
  split
  · exact .remaining left reason time member (.refl _)
  · exact .refl _

theorem callRemaining_backup (left : Entry) (reason : RemainingReason)
    (time : U64) (state : State) :
    (multiTraceCallRemaining cfg left reason time state).2.backup =
      state.backup := by
  unfold multiTraceCallRemaining
  split <;> rfl

variable {todo : List Entry}

theorem releases_handleRemaining (reason : RemainingReason) (time : U64)
    (members : ∀ left ∈ todo, left ∈ state.backup) :
    Releases cfg state (handleRemainingLoop cfg reason time todo state) := by
  induction todo generalizing state with
  | nil => exact .refl _
  | cons left rest ih =>
    have hcall := releases_callRemaining cfg (members left (.head rest)) reason time
    have hbackup := callRemaining_backup cfg left reason time state
    rw [handleRemainingLoop]
    split
    · rename_i next heq
      rw [heq] at hcall hbackup
      refine hcall.trans (ih ?_)
      intro other member
      rw [hbackup]
      exact members other (.tail left member)
    · rename_i next heq
      rw [heq] at hcall
      exact hcall

theorem handleRemaining_backup (reason : RemainingReason) (time : U64)
    (todo : List Entry) (state : State) :
    (handleRemainingLoop cfg reason time todo state).backup = state.backup := by
  induction todo generalizing state with
  | nil => rfl
  | cons left rest ih =>
    have hbackup := callRemaining_backup cfg left reason time state
    rw [handleRemainingLoop]
    split
    · rename_i next heq
      rw [heq] at hbackup
      exact (ih next).trans hbackup
    · rename_i next heq
      rw [heq] at hbackup
      exact hbackup

theorem mem_after_remove (nodup : (event :: rest).Nodup)
    (members : ∀ event' ∈ event :: rest, event' ∈ state.backup)
    (member : other ∈ rest) :
    other ∈ (backupRemove cfg event state).backup := by
  rw [backupRemove_backup, List.mem_erase_of_ne]
  · exact members other (.tail event member)
  · rintro rfl
    exact (List.nodup_cons.mp nodup).1 member

theorem releases_removeAll (nodup : todo.Nodup)
    (members : ∀ event ∈ todo, event ∈ state.backup) :
    Releases cfg state
      (todo.foldl (fun state event => backupRemove cfg event state) state) := by
  induction todo generalizing state with
  | nil => exact .refl _
  | cons event rest ih =>
    refine .remove event (members event (.head rest)) (ih (List.nodup_cons.mp nodup).2 ?_)
    intro other member
    exact mem_after_remove cfg nodup members member

theorem releases_reclaimLoop (reason : RemainingReason) (time : U64)
    (nodup : todo.Nodup) (members : ∀ event ∈ todo, event ∈ state.backup)
    (going : Bool) :
    Releases cfg state (reclaimLoop cfg reason time todo going state) := by
  induction todo generalizing state going with
  | nil => exact .refl _
  | cons event rest ih =>
    have hmember := members event (.head rest)
    have hrest := (List.nodup_cons.mp nodup).2
    cases going with
    | false =>
      refine .remove event hmember (ih hrest ?_ false)
      intro other member
      exact mem_after_remove cfg nodup members member
    | true =>
      have hcall := releases_callRemaining cfg hmember reason time
      have hbackup := callRemaining_backup cfg event reason time state
      rw [← hbackup] at members
      refine hcall.trans (.remove event (by rwa [hbackup]) (ih hrest ?_ _))
      intro other member
      exact mem_after_remove cfg nodup members member

theorem releases_reclaim (key : U64) (reason : RemainingReason) (time : U64)
    (nodup : state.backup.Nodup) :
    Releases cfg state (reclaim cfg key reason time state) := by
  apply releases_reclaimLoop cfg reason time (nodup.filter _)
  intro event member
  exact (List.mem_filter.mp member).1

theorem releases_backupExit (nodup : state.backup.Nodup) :
    Releases cfg state (backupExit cfg state) :=
  releases_removeAll cfg nodup fun _ member => member

theorem releases_lostReclaim (ins : Nat) (time : U64)
    (nodup : state.backup.Nodup) :
    Releases cfg state (lostReclaim cfg ins time state) := by
  unfold lostReclaim
  split
  · exact releases_reclaim cfg _ .lost time nodup
  · refine (releases_handleRemaining cfg .lost time
      (fun _ member => member)).trans (releases_backupExit cfg ?_)
    rw [handleRemaining_backup]
    exact nodup

theorem backupExit_backup (state : State) :
    (backupExit cfg state).backup = [] := by
  have hloop : ∀ (todo : List Entry) (state : State), state.backup = todo →
      (todo.foldl (fun state event => backupRemove cfg event state)
        state).backup = [] := by
    intro todo
    induction todo with
    | nil => exact fun _ same => same
    | cons event rest ih =>
      intro state same
      apply ih
      rw [backupRemove_backup, same, List.erase_cons_head]
  exact hloop state.backup state rfl

theorem lostReclaim_all (affect : cfg.lostAffect = .allEvent) (ins : Nat)
    (time : U64) (state : State) :
    (lostReclaim cfg ins time state).backup = [] := by
  rw [lostReclaim, affect]
  exact backupExit_backup cfg _

theorem releases_nodup (releases : Releases cfg first second)
    (nodup : first.backup.Nodup) : second.backup.Nodup := by
  apply releases.preserves (fun state => state.backup.Nodup) nodup
  · exact fun _ _ _ _ _ nodup => nodup
  · intro state event _ nodup
    rw [backupRemove_backup]
    exact nodup.erase event

end Functions

inductive LostOutcome (node : Node) (state : State) : Node × State → Prop where
  | keep : LostOutcome node state (node, state)
  | last : LostOutcome node state (dropBackup node state)
  | inside :
      LostOutcome node state (dropBackup { node with needFindPrev := false } state)

namespace LostOutcome

variable {state : State}

section

variable (outcome : LostOutcome node state result)

include outcome

theorem kept :
    result.1.entry = node.entry ∧ result.1.needRemove = node.needRemove := by
  cases outcome with
  | keep => exact ⟨rfl, rfl⟩
  | last => unfold dropBackup; split <;> exact ⟨rfl, rfl⟩
  | inside => unfold dropBackup; split <;> exact ⟨rfl, rfl⟩

theorem state_eq :
    (result.2 = state ∧ result.1.needBackup = node.needBackup) ∨
    (result.2 = setUnneeded node.entry state ∧
      node.needBackup = true ∧
      result.1.needBackup = false) := by
  cases outcome with
  | keep => exact .inl ⟨rfl, rfl⟩
  | last =>
    unfold dropBackup
    split_ifs with wanted
    · exact .inr ⟨rfl, wanted, rfl⟩
    · exact .inl ⟨rfl, rfl⟩
  | inside =>
    unfold dropBackup
    split
    · rename_i wanted
      exact .inr ⟨rfl, wanted, rfl⟩
    · exact .inl ⟨rfl, rfl⟩

end

end LostOutcome

theorem eventLostLoop_spec (cfg : Config) (losts : List LostNode) (node : Node)
    (state : State) (nodup : state.backup.Nodup) :
    ∃ released, Releases cfg state released ∧
      LostOutcome node released (eventLostLoop cfg losts node state).2 := by
  induction losts generalizing state with
  | nil => exact ⟨state, .refl _, .keep⟩
  | cons lost rest ih =>
    rw [eventLostLoop]
    split
    · exact ⟨state, .refl _, .keep⟩
    · split
      · exact ⟨state, .refl _, .last⟩
      · have hreclaim : Releases cfg state (if lost.reclaim then state
            else lostReclaim cfg node.entry.ins lost.startTime state) := by
          split
          · exact .refl _
          · exact releases_lostReclaim cfg _ _ nodup
        dsimp only
        split
        · exact ⟨_, hreclaim, .inside⟩
        · obtain ⟨released, hreleases, houtcome⟩ := ih _ (releases_nodup cfg hreclaim nodup)
          exact ⟨released, hreclaim.trans hreleases, houtcome⟩

inductive TwoOutcome (cfg : Config) (node : Node) (state : State) :
    Bool × State → Prop where
  | skip : TwoOutcome cfg node state (false, state)
  | first : TwoOutcome cfg node state (false, state.log (.first node.entry))
  | keep (prev : Entry) (member : prev ∈ state.backup)
      (same : prev.key = node.entry.key) (find : node.needFindPrev = true)
      (stays : node.needRemove = false) :
      TwoOutcome cfg node state (false, callTwo cfg prev node state)
  | take (prev : Entry) (member : prev ∈ state.backup)
      (same : prev.key = node.entry.key) (find : node.needFindPrev = true) :
      TwoOutcome cfg node state (true, backupRemove cfg prev (callTwo cfg prev node state))

theorem trytoCallTwo_spec (cfg : Config) (node : Node) (state : State) :
    TwoOutcome cfg node state (multiTraceTrytoCallTwo cfg node state) := by
  unfold multiTraceTrytoCallTwo
  split
  · rename_i hfind
    cases hprev : multiTraceFindPrev node state with
    | none =>
      dsimp only
      split
      · exact .first
      · exact .skip
    | some prev =>
      have hmember := List.mem_of_find?_eq_some hprev
      have hkey : prev.key = node.entry.key := by
        have htrue := List.find?_some hprev
        simp only [Bool.and_eq_true, decide_eq_true_iff] at htrue
        exact htrue.1
      dsimp only
      split_ifs with hremove
      · exact .take prev hmember hkey hfind
      · exact .keep prev hmember hkey hfind (by simpa using hremove)
  · exact .skip

inductive BackupOutcome (cfg : Config) (node : Node) (state : State) :
    Bool × State → Prop where
  | skip (unwanted : node.needBackup = false) :
      BackupOutcome cfg node state (true, state)
  | stale (exist : Entry) (wanted : node.needBackup = true)
      (member : exist ∈ state.backup) (before : node.entry.time < exist.time) :
      BackupOutcome cfg node state (true, setUnneeded node.entry state)
  | replace (exist : Entry) (wanted : node.needBackup = true)
      (found : state.backup.find? (backupSame cfg node.entry) = some exist) :
      BackupOutcome cfg node state
        (true, backupNodeNew cfg node.entry (backupRemove cfg exist state))
  | fresh (wanted : node.needBackup = true)
      (missing : state.backup.find? (backupSame cfg node.entry) = none) :
      BackupOutcome cfg node state (false, backupNodeNew cfg node.entry state)

theorem trytoBackup_spec (cfg : Config) (node : Node) (state : State) :
    BackupOutcome cfg node state (multiTraceTrytoBackup cfg node state) := by
  unfold multiTraceTrytoBackup
  split
  · rename_i hwanted
    cases hfound : state.backup.find? (backupSame cfg node.entry) with
    | none => exact .fresh hwanted hfound
    | some exist =>
      dsimp only
      split_ifs with hbefore
      · exact .stale exist hwanted (List.mem_of_find?_eq_some hfound) hbefore
      · exact .replace exist hwanted hfound
  · rename_i hunwanted
    exact .skip (by simpa using hunwanted)

inductive Processed (cfg : Config) (node : Node) (state : State) :
    State → Prop where
  | intro {released : State} {lost : List LostNode} {demoted : Node × State}
      {paired result : Bool × State}
      (lostLoop : eventLostLoop cfg (lostList cfg node.entry.ins state) node
        (state.log (.handle node.entry)) = (lost, demoted))
      (releases : Releases cfg (state.log (.handle node.entry)) released)
      (lostOutcome : LostOutcome node released demoted)
      (twoOutcome : TwoOutcome cfg demoted.1
        (setLostList cfg demoted.1.entry.ins lost demoted.2) paired)
      (backupOutcome : BackupOutcome cfg demoted.1 paired.2 result) :
      Processed cfg node state result.2

theorem processEvent_spec (cfg : Config) (node : Node)
    (nodup : state.backup.Nodup) :
    Processed cfg node state (processEvent cfg node state).2 := by
  have hlist : lostList cfg node.entry.ins (state.log (.handle node.entry)) =
      lostList cfg node.entry.ins state := rfl
  obtain ⟨released, hreleases, hlost⟩ := eventLostLoop_spec cfg
    (lostList cfg node.entry.ins state) node (state.log (.handle node.entry)) nodup
  unfold processEvent multiTraceEventLost
  rw [hlist]
  generalize hloop : eventLostLoop cfg (lostList cfg node.entry.ins state) node
    (state.log (.handle node.entry)) = outcome at hlost ⊢
  obtain ⟨lost, demoted⟩ := outcome
  have processed := Processed.intro hloop hreleases hlost (trytoCallTwo_spec cfg demoted.1
      (setLostList cfg demoted.1.entry.ins lost demoted.2)) (trytoBackup_spec cfg _ _)
  exact processed

structure Frame {β : Type} (cfg : Config) (view : State → β) : Prop where
  log : ∀ act state, view (state.log act) = view state
  remove : ∀ event state, view (backupRemove cfg event state) = view state
  unneeded : ∀ event state, view (setUnneeded event state) = view state
  lost : ∀ ins lost state, view (setLostList cfg ins lost state) = view state
  new : ∀ event state, view (backupNodeNew cfg event state) = view state

namespace Frame

variable {β : Type} {cfg : Config} {state next : State}

theorem releases (frame : Frame cfg view) (releases : Releases cfg state next) :
    view next = view state := by
  apply releases.preserves (fun other => view other = view state) rfl
  · exact fun _ _ _ _ _ same => (frame.log _ _).trans same
  · exact fun _ _ _ same => (frame.remove _ _).trans same

theorem twoOutcome (frame : Frame cfg view)
    (outcome : TwoOutcome cfg node state paired) :
    view paired.2 = view state := by
  have hcall : ∀ prev, view (callTwo cfg prev node state) = view state := by
    intro prev
    unfold callTwo
    split
    · exact frame.log _ _
    · rfl
  cases outcome with
  | skip => rfl
  | first => exact frame.log _ _
  | keep => exact hcall _
  | take => exact (frame.remove _ _).trans (hcall _)

theorem backupOutcome (frame : Frame cfg view)
    (outcome : BackupOutcome cfg node state result) :
    view result.2 = view state := by
  cases outcome with
  | skip => rfl
  | stale => exact frame.unneeded _ _
  | replace => exact (frame.new _ _).trans (frame.remove _ _)
  | fresh => exact frame.new _ _

theorem processed (frame : Frame cfg view)
    (processed : Processed cfg node state next) : view next = view state := by
  cases processed with
  | intro lostLoop releases lostOutcome twoOutcome backupOutcome =>
    rename_i released lost demoted paired result
    have hreleased := (frame.releases releases).trans (frame.log _ _)
    have hdemoted : view (setLostList cfg demoted.1.entry.ins lost demoted.2) = view state := by
      rw [frame.lost]
      rcases lostOutcome.state_eq with ⟨same, _⟩ | ⟨same, _⟩
      · rwa [same]
      · rw [same, frame.unneeded, hreleased]
    exact (frame.backupOutcome backupOutcome).trans ((frame.twoOutcome twoOutcome).trans hdemoted)

end Frame

def State.queue (state : State) : List Node × Nat × U64 :=
  (state.pending, state.eventHandled, state.recentTime)

theorem queue_frame (cfg : Config) : Frame cfg State.queue where
  log _ _ := rfl
  remove _ _ := by
    unfold backupRemove perfEventBackupNodeDelete
    cases cfg.needTimeline <;> rfl
  unneeded _ _ := rfl
  lost _ _ _ := by
    unfold setLostList
    split <;> rfl
  new _ _ := by
    unfold backupNodeNew
    cases cfg.needTimeline <;> rfl

end PerfProf.MultiTrace
