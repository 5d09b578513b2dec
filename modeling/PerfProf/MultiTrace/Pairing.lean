import Mathlib.Data.List.Nodup
import PerfProf.Data.Register
import PerfProf.MultiTrace.Queue

namespace PerfProf.MultiTrace

open PerfProf.Data

/-! The backup tree as a register with at most one event for each key. -/

def registerView : Act → Option (RegisterOp Entry)
  | .backup event => some (.put event)
  | .remove event => some (.drop event)
  | .two prev _ _ => some (.use prev)
  | _ => none

theorem view_backup (event : Entry) :
    registerView (.backup event) = some (.put event) := rfl

theorem view_remove (event : Entry) :
    registerView (.remove event) = some (.drop event) := rfl

theorem view_two (prev cur : Entry) (time : U64) :
    registerView (.two prev cur time) = some (.use prev) := rfl

theorem view_backup_iff :
    registerView act = some (.put event) ↔ act = .backup event := by
  cases act <;> simp [registerView]

theorem view_remove_iff :
    registerView act = some (.drop event) ↔ act = .remove event := by
  cases act <;> simp [registerView]

abbrev follows (acts : List Act) (register : Register U64 Entry) : Prop :=
  run (Register.accept registerView Entry.key Entry.seq) acts (.empty U64 Entry) = some register

structure Paired (bound : Nat) (state : State) : Prop where
  register : ∃ register, follows state.acts register ∧ register.busy = none ∧
    register.bound ≤ bound ∧
    ∀ event, event ∈ state.backup ↔ register.held event.key = some event
  nodup : state.backup.Nodup
  calls : ∀ prev cur time, .two prev cur time ∈ state.acts →
    prev.key = cur.key ∧ prev.time < cur.time

namespace Paired

variable {bound : Nat} {state next : State}

section

variable (paired : Paired bound state)

include paired

theorem congr (hbackup : next.backup = state.backup)
    (hacts : next.acts = state.acts) : Paired bound next := by
  obtain ⟨hregister, hnodup, hcalls⟩ := paired
  exact ⟨by rwa [hbackup, hacts], by rwa [hbackup], by rwa [hacts]⟩

theorem mono (le : bound ≤ larger) : Paired larger state := by
  obtain ⟨⟨register, hfollows, hidle, hbound, hheld⟩, hnodup, hcalls⟩ := paired
  exact ⟨⟨register, hfollows, hidle, hbound.trans le, hheld⟩, hnodup, hcalls⟩

theorem eq_of_key (hfirst : first ∈ state.backup)
    (hsecond : second ∈ state.backup) (same : first.key = second.key) :
    first = second := by
  obtain ⟨register, _, _, _, hheld⟩ := paired.register
  have one := (hheld first).mp hfirst
  have two := (hheld second).mp hsecond
  rw [same, two] at one
  exact (Option.some.inj one).symm

theorem keys_nodup : (state.backup.map Entry.key).Nodup := by
  apply List.Nodup.map_on
  · intro first hfirst second hsecond same
    exact paired.eq_of_key hfirst hsecond same
  · exact paired.nodup

theorem note (hview : registerView act = none) :
    Paired bound (state.log act) := by
  obtain ⟨⟨register, hfollows, hidle, hbound, hheld⟩, hnodup, hcalls⟩ := paired
  refine ⟨⟨register, ?_, hidle, hbound, hheld⟩, hnodup, ?_⟩
  · exact Register.run_snoc.mpr ⟨register, hfollows, (Register.accept_none hview).mpr ⟨hidle, rfl⟩⟩
  · intro prev cur time member
    rcases List.mem_append.mp member with member | member
    · exact hcalls prev cur time member
    · rw [← List.mem_singleton.mp member] at hview
      cases hview

end

theorem held_erase {backup : List Entry} {held : U64 → Option Entry}
    (nodup : backup.Nodup)
    (hheld : ∀ other, other ∈ backup ↔ held other.key = some other)
    (member : event ∈ backup) (other : Entry) :
    other ∈ backup.erase event ↔
      Function.update held event.key none other.key = some other := by
  rw [nodup.mem_erase_iff, hheld]
  by_cases same : other.key = event.key
  · rw [same, Function.update_self, (hheld event).mp member]
    simp [eq_comm]
  · rw [Function.update_of_ne same]
    constructor
    · exact And.right
    · intro found
      refine ⟨?_, found⟩
      rintro rfl
      exact same rfl

theorem follows_remove {acts : List Act} {register : Register U64 Entry}
    (hfollows : follows acts register)
    (hbusy : register.busy = none ∨ register.busy = some event)
    (hheld : register.held event.key = some event) :
    follows (acts ++ [.remove event])
      ⟨Function.update register.held event.key none, none, register.bound⟩ :=
  Register.run_snoc.mpr ⟨register, hfollows,
    (Register.accept_drop (view_remove event)).mpr ⟨⟨hbusy, hheld⟩, rfl⟩⟩

section

variable (paired : Paired bound state)

include paired

theorem remove (cfg : Config) (member : event ∈ state.backup) :
    Paired bound (backupRemove cfg event state) := by
  obtain ⟨⟨register, hfollows, hidle, hbound, hheld⟩, hnodup, hcalls⟩ := paired
  have hremoved := follows_remove hfollows (.inl hidle) ((hheld event).mp member)
  rw [← backupRemove_acts cfg event state] at hremoved
  refine ⟨⟨_, hremoved, rfl, hbound, ?_⟩, ?_, ?_⟩
  · intro other
    rw [backupRemove_backup]
    exact held_erase hnodup hheld member other
  · rw [backupRemove_backup]
    exact hnodup.erase event
  · intro prev cur time found
    rw [backupRemove_acts] at found
    rcases List.mem_append.mp found with found | found
    · exact hcalls prev cur time found
    · cases List.mem_singleton.mp found

theorem pair (cfg : Config) {prev cur : Entry} (member : prev ∈ state.backup)
    (same : prev.key = cur.key) (before : prev.time < cur.time) (time : U64) :
    Paired bound (backupRemove cfg prev (state.log (.two prev cur time))) := by
  obtain ⟨⟨register, hfollows, hidle, hbound, hheld⟩, hnodup, hcalls⟩ := paired
  have hmember := (hheld prev).mp member
  have hused : follows (state.acts ++ [.two prev cur time]) { register with busy := some prev } :=
    Register.run_snoc.mpr ⟨register, hfollows,
      (Register.accept_use (view_two prev cur time)).mpr ⟨⟨hidle, hmember⟩, rfl⟩⟩
  have hremoved := follows_remove hused (.inr rfl) hmember
  have hacts : (backupRemove cfg prev (state.log (.two prev cur time))).acts = state.acts ++ [.two
      prev cur time] ++ [.remove prev] := backupRemove_acts cfg prev _
  rw [← hacts] at hremoved
  refine ⟨⟨_, hremoved, rfl, hbound, ?_⟩, ?_, ?_⟩
  · intro other
    rw [backupRemove_backup]
    exact held_erase hnodup hheld member other
  · rw [backupRemove_backup]
    exact hnodup.erase prev
  · intro first second at_ found
    rw [hacts] at found
    rcases List.mem_append.mp found with found | found
    · rcases List.mem_append.mp found with found | found
      · exact hcalls first second at_ found
      · cases List.mem_singleton.mp found
        exact ⟨same, before⟩
    · cases List.mem_singleton.mp found

theorem put (cfg : Config)
    (hfree : ∀ other ∈ state.backup, other.key ≠ event.key)
    (hseq : bound ≤ event.seq) :
    Paired (event.seq + 1) (backupNodeNew cfg event state) := by
  obtain ⟨⟨register, hfollows, hidle, hbound, hheld⟩, hnodup, hcalls⟩ := paired
  have hnone : register.held event.key = none := by
    cases hcase : register.held event.key with
    | none => rfl
    | some other =>
      have hkey := (Register.kept_of_run hfollows).keyed _ _ hcase
      have hmember := (hheld other).mpr (by rwa [hkey])
      exact absurd hkey (hfree other hmember)
  have hput : follows (state.acts ++ [.backup event]) ⟨Function.update register.held event.key (some
      event), none, event.seq + 1⟩ := Register.run_snoc.mpr ⟨register, hfollows,
      (Register.accept_put (view_backup event)).mpr ⟨⟨hidle, hnone, hbound.trans hseq⟩, rfl⟩⟩
  rw [← backupNodeNew_acts cfg event state] at hput
  refine ⟨⟨_, hput, rfl, Nat.le_refl _, ?_⟩, ?_, ?_⟩
  · intro other
    rw [backupNodeNew_backup, mem_backupInsert, hheld]
    dsimp only
    by_cases same : other.key = event.key
    · rw [same, Function.update_self, hnone]
      simp [eq_comm]
    · rw [Function.update_of_ne same]
      constructor
      · rintro (rfl | found)
        · exact absurd rfl same
        · exact found
      · exact .inr
  · rw [backupNodeNew_backup]
    exact backupInsert_nodup cfg hnodup fun member => hfree event member rfl
  · intro prev cur time found
    rw [backupNodeNew_acts] at found
    rcases List.mem_append.mp found with found | found
    · exact hcalls prev cur time found
    · cases List.mem_singleton.mp found

theorem releases (released : Releases cfg state next) : Paired bound next :=
  released.preserves (Paired bound) paired (fun _ _ _ _ _ paired => paired.note rfl)
    (fun _ _ member paired => paired.remove cfg member)

theorem demoted (outcome : LostOutcome node state result) (cfg : Config)
    (ins : Nat) (lost : List LostNode) :
    Paired bound (setLostList cfg ins lost result.2) := by
  have hresult : Paired bound result.2 := by
    rcases outcome.state_eq with ⟨same, _⟩ | ⟨same, _⟩
    · rwa [same]
    · rw [same]
      exact paired.congr rfl rfl
  unfold setLostList
  split
  · exact hresult.congr rfl rfl
  · exact hresult.congr rfl rfl

theorem called (outcome : TwoOutcome cfg node state result)
    (hremove : node.needRemove = true) : Paired bound result.2 := by
  cases outcome with
  | skip => exact paired
  | first => exact paired.note rfl
  | keep prev member same find stays => cases hremove.symm.trans stays
  | take prev member same find =>
    unfold callTwo
    split_ifs with horder
    · rw [Bool.and_eq_true, decide_eq_true_iff] at horder
      exact paired.pair cfg member same horder.2 state.recentTime
    · exact paired.remove cfg member

theorem backedUp (hnested : cfg.nested = false)
    (outcome : BackupOutcome cfg node state result)
    (hseq : bound ≤ node.entry.seq) : Paired (node.entry.seq + 1) result.2 := by
  have hle : bound ≤ node.entry.seq + 1 := by omega
  cases outcome with
  | skip => exact paired.mono hle
  | stale => exact (paired.mono hle).congr rfl rfl
  | replace exist wanted found =>
    have hmember := List.mem_of_find?_eq_some found
    have hkey : node.entry.key = exist.key := by
      have hsame := List.find?_some found
      simpa [backupSame, hnested] using hsame
    refine (paired.remove cfg hmember).put cfg ?_ hseq
    intro other member same
    rw [backupRemove_backup, paired.nodup.mem_erase_iff] at member
    exact member.1 (paired.eq_of_key member.2 hmember (same.trans hkey))
  | fresh wanted missing =>
    refine paired.put cfg ?_ hseq
    intro other member same
    have hfalse := List.find?_eq_none.mp missing other member
    simp [backupSame, hnested, same] at hfalse

theorem process (hnested : cfg.nested = false)
    (hremove : node.needRemove = true) (hseq : bound ≤ node.entry.seq)
    (processed : Processed cfg node state next) :
    Paired (node.entry.seq + 1) next := by
  cases processed with
  | intro _ releases lostOutcome twoOutcome backupOutcome =>
    have hhandled : Paired bound (state.log (.handle node.entry)) := paired.note rfl
    have hcalled := ((hhandled.releases releases).demoted lostOutcome cfg _
      _).called twoOutcome (lostOutcome.kept.2.trans hremove)
    rw [← lostOutcome.kept.1] at hseq ⊢
    exact hcalled.backedUp hnested backupOutcome hseq

end

end Paired

theorem paired_init : Paired 0 State.init where
  register := by
    refine ⟨.empty U64 Entry, rfl, rfl, Nat.le_refl 0, ?_⟩
    intro event
    constructor
    · intro member
      cases member
    · intro held
      cases held
  nodup := List.nodup_nil
  calls := fun prev cur time member => by cases member

theorem paired_rule (hnested : cfg.nested = false) :
    QueueRule cfg (fun _ _ _ => True) (fun bound _ => Paired bound) where
  nodup paired := paired.nodup
  tick _ paired _ := paired.congr rfl rfl
  skip paired := paired.congr rfl rfl
  insert {_ _ state node} paired _ _ := by
    have hcore := timelineNodeNew_core node
      (!node.needBackup || node.entry.tp.untraced) state.nextSeq
    exact paired.congr (congrArg Core.backup hcore) (congrArg Core.acts hcore)
  pending {_ _ state first rest _} paired _ _ waits processed := by
    have hcore := popPending_core first rest state
    exact (paired.congr (congrArg Core.backup hcore) (congrArg Core.acts hcore)).process hnested
      (waits.needRemove hnested) waits.seq_ge processed
  plain {bound _ state _ _} paired _ _ waits processed := by
    have hnext : Paired bound state.nextSeq := paired.congr rfl rfl
    exact hnext.process hnested (waits.needRemove hnested) waits.seq_ge processed
  free paired _ _ := by
    apply freeUnneeded_preserves (Paired _) _ _ _ paired
    · exact fun _ _ member paired => paired.remove cfg member
    · exact fun _ paired => paired.congr rfl rfl
    · intro state paired
      have hcore := timelineNodeDelete_core state
      exact paired.congr (congrArg Core.backup hcore) (congrArg Core.acts hcore)
  releases paired released := paired.releases released
  lost _ _ _ paired _ := by
    unfold setLostList
    split
    · exact paired.congr rfl rfl
    · exact paired.congr rfl rfl

/-- Every pair was made with the latest event of its key that was backed up and
not removed since; that event is removed next and in no other pair. -/
structure PairsLatest (state : State) : Prop where
  oneEach : (state.backup.map Entry.key).Nodup
  replaced : ∀ before first middle second after,
    state.acts = before ++ .backup first :: (middle ++ .backup second :: after) →
    first.key = second.key → .remove first ∈ middle
  pairs : ∀ before prev cur time after, state.acts = before ++ .two prev cur time :: after →
    prev.key = cur.key ∧ prev.time < cur.time ∧
    (∃ early late, before = early ++ .backup prev :: late ∧
      ∀ act ∈ late, act ≠ .remove prev ∧ ∀ other, act = .backup other → other.key ≠ prev.key) ∧
    (∃ rest, after = .remove prev :: rest) ∧
    ∀ other otherTime, .two prev other otherTime ∉ before ++ after

theorem Paired.pairsLatest (paired : Paired bound state) :
    PairsLatest state := by
  obtain ⟨register, hfollows, hidle, _, _⟩ := paired.register
  refine ⟨paired.keys_nodup, ?_, ?_⟩
  · intro before first middle second after hacts same
    rw [hacts] at hfollows
    obtain ⟨act, member, hview⟩ := Register.dropped_between hfollows
      (view_backup first) (view_backup second) same
    rw [← view_remove_iff.mp hview]
    exact member
  · intro before prev cur time after hacts
    obtain ⟨hkey, htime⟩ := paired.calls prev cur time (by simp [hacts])
    rw [hacts] at hfollows
    have hview := view_two prev cur time
    obtain ⟨⟨early, act, late, hbefore, hput, hlate⟩, ⟨next, rest, hafter, hdrop⟩,
      _⟩ := Register.used_spec hfollows hidle hview
    have honce := Register.used_once hfollows hidle hview
    refine ⟨hkey, htime, ⟨early, late, ?_, ?_⟩, ⟨rest, ?_⟩, ?_⟩
    · rw [hbefore, view_backup_iff.mp hput]
    · intro other member
      obtain ⟨hnot, hnew⟩ := hlate other member
      refine ⟨fun same => hnot (view_remove_iff.mpr same), ?_⟩
      exact fun new same => hnew new (view_backup_iff.mpr same)
    · rw [hafter, view_remove_iff.mp hdrop]
    · intro other otherTime member
      exact honce _ member (view_two prev other otherTime)

/-- Without nesting, every pair of events that was handed on is a latest first
event with the second one. -/
theorem two_pairs_latest_backup {cfg : Config}
    (hnested : cfg.nested = false)
    {actions : List Action} {last : State}
    (hrun : run (step cfg) actions State.init = some last) :
    PairsLatest last := by
  have hqueued : Queued cfg (fun bound _ => Paired bound) last := by
    refine run_preserves _ ?_ ⟨0, 0, .init cfg, paired_init⟩ hrun
    intro action state next holds hstep
    exact (paired_rule hnested).stepRule.step holds hstep fun _ _ _ _ => trivial
  obtain ⟨bound, now, _, paired⟩ := hqueued
  exact paired.pairsLatest

theorem two_pairs_latest_backup_delay :
    ∃ last prev cur,
      run (step (delayConfig false 0 0)) [.sample (sampleAt 0 1 7),
          .sample (sampleAt 0 2 7), .sample (sampleAt 1 3 7)] State.init =
        some last ∧
      .two prev cur 3 ∈ last.acts ∧
      prev.time = 2 ∧
      PairsLatest last := by
  refine ⟨_, ⟨1, 2, 7, ⟨0, false, true, false⟩, none, 0, 8⟩,
    ⟨2, 3, 7, ⟨1, false, true, false⟩, none, 0, 8⟩, (Option.some_get ?_).symm, ?_, rfl,
    two_pairs_latest_backup rfl (Option.some_get _).symm⟩
  all_goals decide +kernel

end PerfProf.MultiTrace
