import Mathlib.Data.List.Pairwise
import PerfProf.Blktrace.Sample

namespace PerfProf.Blktrace

open Data

namespace RequestTrack

def Before (first second : RequestTrack) : Prop :=
  first.dev < second.dev ∨ first.dev = second.dev ∧ first.finish ≤ second.sector

def Meets (first second : RequestTrack) : Prop :=
  first.dev = second.dev ∧ first.sector < second.finish ∧ second.sector < first.finish

def Proper (rq : RequestTrack) : Prop := rq.sector < rq.finish

def BelongsTo (r rq : RequestTrack) : Prop :=
  rq.dev = r.dev ∧ rq.sector = r.sector ∧ rq.nrSector = r.nrSector ∨ rq.Meets r

variable {first second : RequestTrack}

theorem Meets.symm (meets : first.Meets second) : second.Meets first :=
  ⟨meets.1.symm, meets.2.2, meets.2.1⟩

theorem Before.not_meets (before : first.Before second) :
    ¬ first.Meets second := by
  rintro ⟨hdev, _, hmeets⟩
  rcases before with hless | ⟨_, hends⟩
  · rw [hdev] at hless
    exact absurd hless (BitVec.lt_irrefl _)
  · exact BitVec.not_lt.mpr hends hmeets

instance : Std.Symm fun first second : RequestTrack => ¬ first.Meets second :=
  ⟨fun _ _ apart meets => apart meets.symm⟩

theorem eq_of_meets {items : List RequestTrack}
    (ordered : items.Pairwise Before) (hfirst : first ∈ items)
    (hsecond : second ∈ items) (meets : first.Meets second) :
    first = second := by
  have hapart : items.Pairwise fun first second => ¬ first.Meets second :=
    ordered.imp Before.not_meets
  by_contra different
  exact hapart.forall hfirst hsecond different meets

end RequestTrack

open RequestTrack

theorem cmp_eq_iff : requestTrackNodeCmp r rq = .eq ↔ rq.Meets r := by
  unfold requestTrackNodeCmp Meets
  grind [BitVec.not_le, BitVec.not_lt, BitVec.le_antisymm]

theorem before_of_cmp_lt (less : requestTrackNodeCmp r rq = .lt) :
    rq.Before r := by
  unfold requestTrackNodeCmp at less
  unfold Before
  grind [BitVec.not_lt, BitVec.le_antisymm]

theorem before_of_cmp_gt (greater : requestTrackNodeCmp r rq = .gt) :
    r.Before rq := by
  unfold requestTrackNodeCmp at greater
  unfold Before
  grind [BitVec.not_lt, BitVec.le_antisymm]

theorem cmp_mono (before : first.Before second) (hfirst : first.Proper)
    (hsecond : second.Proper) :
    (requestTrackNodeCmp r first = .gt → requestTrackNodeCmp r second = .gt) ∧
    (requestTrackNodeCmp r second = .lt →
      requestTrackNodeCmp r first = .lt) := by
  unfold requestTrackNodeCmp
  unfold Before at before
  unfold Proper at hfirst hsecond
  simp only [BitVec.lt_def, BitVec.le_def, ← BitVec.toNat_inj] at *
  constructor
  · intro greater
    rcases before with hdev | ⟨hdev, hends⟩ <;> split_ifs at * <;> first | rfl | omega
  · intro less
    rcases before with hdev | ⟨hdev, hends⟩ <;> split_ifs at * <;> first | rfl | omega

section Invariant

variable {δ : Type}

structure Tracked (tracks : SearchTree δ RequestTrack) : Prop where
  ordered : tracks.toList.Pairwise Before
  proper : ∀ rq ∈ tracks.toList, rq.Proper

/-- The ranges are disjoint and in the order of the tree, and every event finds
a request it belongs to if there is one. -/
structure Sound (tracks : SearchTree δ RequestTrack) : Prop where
  ordered : tracks.toList.Pairwise Before
  found : ∀ r rq : RequestTrack, rq ∈ tracks.toList → r.BelongsTo rq →
    ∃ other, tracks.find (requestTrackNodeCmp r) = some other ∧ r.BelongsTo other ∧
      ((∀ next ∈ tracks.toList, r.BelongsTo next → next = rq) → other = rq)

theorem Tracked.guides (tracked : Tracked tracks) (r : RequestTrack) :
    SearchTree.Guides (requestTrackNodeCmp r) tracks.toList :=
  tracked.ordered.imp_of_mem fun hfirst hsecond before =>
    cmp_mono before (tracked.proper _ hfirst) (tracked.proper _ hsecond)

variable {previous rq : RequestTrack} {before after : List RequestTrack}

theorem Tracked.of_toList (tracked : Tracked tracks)
    (sub : other.toList.Sublist tracks.toList) : Tracked other :=
  ⟨tracked.ordered.sublist sub, fun rq hrq => tracked.proper rq (sub.mem hrq)⟩

theorem Tracked.leaf : Tracked (SearchTree.leaf : SearchTree δ RequestTrack) :=
  ⟨.nil, fun _ hmem => absurd hmem List.not_mem_nil⟩

theorem Tracked.sound (tracked : Tracked tracks) : Sound tracks where
  ordered := tracked.ordered
  found := by
    intro r rq hrq belongs
    have hmeets : rq.Meets r := by
      rcases belongs with ⟨hdev, hsector, hnr⟩ | hmeets
      · have hproper := tracked.proper rq hrq
        have hfinish : rq.finish = r.finish := by rw [finish, finish, hsector, hnr]
        refine ⟨hdev, ?_, ?_⟩
        · exact hfinish ▸ hproper
        · exact hsector ▸ hproper
      · exact hmeets
    obtain ⟨other, hfind⟩ := SearchTree.find_of_mem (tracked.guides r) hrq (cmp_eq_iff.mpr hmeets)
    have hother : r.BelongsTo other := .inr (cmp_eq_iff.mp (SearchTree.find_split hfind).1)
    exact ⟨other, hfind, hother, fun only => only other (SearchTree.mem_of_find hfind) hother⟩

theorem Sound.tracked {tracks : SearchTree δ RequestTrack}
    (sound : Sound tracks) : Tracked tracks where
  ordered := sound.ordered
  proper := by
    intro rq hrq
    obtain ⟨other, hfind, -, -⟩ := sound.found rq rq hrq (.inl ⟨rfl, rfl, rfl⟩)
    have hmeets := cmp_eq_iff.mp (SearchTree.find_split hfind).1
    have hsame := eq_of_meets sound.ordered (SearchTree.mem_of_find hfind) hrq hmeets
    rw [hsame] at hmeets
    exact hmeets.2.1

def Fits (r : RequestTrack) (tracks : SearchTree δ RequestTrack) : Prop :=
  r.tp = .rqComplete ∨ r.Proper ∧ ∀ first ∈ tracks.toList, ∀ second ∈ tracks.toList,
      first.Meets r → second.Meets r → first = second

variable {r : RequestTrack}


theorem before_of_apart (before : rq.Before previous)
    (hmeets : previous.Meets r) (proper : rq.Proper) (apart : ¬ rq.Meets r) :
    rq.Before r := by
  unfold Before Meets Proper at *
  simp only [BitVec.lt_def, BitVec.le_def, ← BitVec.toNat_inj] at *
  omega

theorem after_of_apart (before : previous.Before rq) (hmeets : previous.Meets r)
    (proper : rq.Proper) (apart : ¬ rq.Meets r) : r.Before rq := by
  unfold Before Meets Proper at *
  simp only [BitVec.lt_def, BitVec.le_def, ← BitVec.toNat_inj] at *
  omega

theorem rewritten_iff (ordered : (before ++ previous :: after).Pairwise Before)
    (proper : ∀ rq ∈ before ++ previous :: after, rq.Proper)
    (hmeets : previous.Meets r) :
    (before ++ r :: after).Pairwise Before ↔
      ∀ rq ∈ before ++ previous :: after, rq.Meets r → rq = previous := by
  have haround := SearchTree.pairwise_around.mp ordered
  constructor
  · intro hnew rq hrq meets
    have hnewAround := SearchTree.pairwise_around.mp hnew
    rcases List.mem_append.mp hrq with hbefore | hafter
    · exact absurd meets (hnewAround.2.1 rq hbefore).not_meets
    rcases List.mem_cons.mp hafter with same | hafter
    · exact same
    · exact absurd meets.symm (hnewAround.2.2 rq hafter).not_meets
  · intro only
    refine SearchTree.pairwise_around.mpr ⟨haround.1, ?_, ?_⟩
    · intro rq hrq
      have hin : rq ∈ before ++ previous :: after := List.mem_append_left _ hrq
      have hbefore := haround.2.1 rq hrq
      refine before_of_apart hbefore hmeets (proper rq hin) fun meets => ?_
      rw [only rq hin meets] at hbefore hin
      exact hbefore.not_meets ⟨rfl, proper _ hin, proper _ hin⟩
    · intro rq hrq
      have hin : rq ∈ before ++ previous :: after :=
        List.mem_append_right _ (List.mem_cons_of_mem _ hrq)
      have hafter := haround.2.2 rq hrq
      refine after_of_apart hafter hmeets (proper rq hin) fun meets => ?_
      rw [only rq hin meets] at hafter hin
      exact hafter.not_meets ⟨rfl, proper _ hin, proper _ hin⟩

theorem tracked_iff (hlist : other.toList = before ++ r :: after)
    (proper : ∀ rq ∈ before ++ after, rq.Proper) :
    Tracked other ↔ r.Proper ∧ (before ++ r :: after).Pairwise Before := by
  constructor
  · intro tracked
    refine ⟨tracked.proper r (by simp [hlist]), hlist ▸ tracked.ordered⟩
  · rintro ⟨hr, ordered⟩
    refine ⟨hlist ▸ ordered, ?_⟩
    intro rq hrq
    rw [hlist, List.mem_append, List.mem_cons] at hrq
    rcases hrq with hbefore | rfl | hafter
    · exact proper rq (List.mem_append_left _ hbefore)
    · exact hr
    · exact proper rq (List.mem_append_right _ hafter)

theorem trackRequest_iff (tracked : Tracked tracks) :
    Tracked (trackRequest balance r tracks) ↔ Fits r tracks := by
  unfold trackRequest Fits
  cases hfind : tracks.find (requestTrackNodeCmp r) with
  | some previous =>
    obtain ⟨hprobe, before, after, hlist, hset, hout⟩ := SearchTree.find_split hfind
    have hmeets := cmp_eq_iff.mp hprobe
    have hprevious : previous ∈ tracks.toList := SearchTree.mem_of_find hfind
    by_cases hcomplete : r.tp = .rqComplete
    · simp only [hfind, hcomplete, if_true, true_or, iff_true]
      refine tracked.of_toList ?_
      rw [SearchTree.Balance.settle_toList, hout, hlist]
      exact (List.sublist_cons_self previous after).append_left before
    · simp only [hfind, hcomplete, if_false, false_or]
      rw [tracked_iff (hset _) fun rq hrq => tracked.proper rq (by
          rw [hlist]
          rcases List.mem_append.mp hrq with hin | hin
          · exact List.mem_append_left _ hin
          · exact List.mem_append_right _ (List.mem_cons_of_mem _ hin)),
        rewritten_iff (hlist ▸ tracked.ordered) (hlist ▸ tracked.proper) hmeets, ← hlist]
      refine and_congr_right fun _ => ⟨?_, ?_⟩
      · intro only first hfirst second hsecond meets meets'
        rw [only first hfirst meets, only second hsecond meets']
      · intro unique rq hrq meets
        exact unique rq hrq previous hprevious meets hmeets
  | none =>
    obtain ⟨before, after, hlist, hbelow, habove, hlink⟩ :=
      SearchTree.find_none_split (tracked.guides r) hfind
    by_cases hcomplete : r.tp = .rqComplete
    · simp only [hfind, hcomplete, if_true, true_or, iff_true]
      exact tracked
    · simp only [hfind, hcomplete, if_false, false_or]
      have hnew : (balance.settle tracks
          (tracks.link (requestTrackNodeCmp r) balance.fresh r)).toList =
          before ++ r :: after := by
        rw [SearchTree.Balance.settle_toList, hlink]
      rw [tracked_iff hnew (hlist ▸ tracked.proper)]
      refine and_congr_right fun _ => ⟨?_, ?_⟩
      · intro _ first hfirst _ _ meets
        rw [hlist] at hfirst
        rcases List.mem_append.mp hfirst with hin | hin
        · exact absurd meets (before_of_cmp_lt (hbelow first hin)).not_meets
        · exact absurd meets.symm (before_of_cmp_gt (habove first hin)).not_meets
      · intro _
        exact SearchTree.pairwise_around.mpr ⟨hlist ▸ tracked.ordered, fun rq hrq =>
          before_of_cmp_lt (hbelow rq hrq), fun rq hrq => before_of_cmp_gt (habove rq hrq)⟩

theorem eventLostLoop_tracked (time : U64) (lostList : List BlockLostNode)
    (tracked : Tracked tracks) :
    Tracked (eventLostLoop time lostList tracks).2.1 := by
  induction lostList generalizing tracks with
  | nil => exact tracked
  | cons lost rest ih =>
    have hreclaim : Tracked (if lost.reclaim then tracks else .leaf) := by
      split
      · exact tracked
      · exact Tracked.leaf
    rw [eventLostLoop]
    split
    · exact tracked
    · dsimp only
      split
      · exact hreclaim
      · exact ih hreclaim

end Invariant

section Run

variable {δ : Type}

def Allowed : Event → Ctx δ → Prop
  | .lost _ _ _, _ => True
  | .sample event, ctx =>
    ctx.withinLost event.time = false → ∀ tp, ctx.tpOf event.commonType = some tp →
        event.sector ≠ BitVec.allOnes 64 → Fits (event.track tp) (ctx.pastLost event.time).rqTracks

variable {ctx : Ctx δ}

section

variable (balance : SearchTree.Balance δ RequestTrack) (greaterThan : U64)

theorem blktraceSample_skipped (skipped : ctx.withinLost event.time = true ∨
      ctx.tpOf event.commonType = none ∨ event.sector = BitVec.allOnes 64) :
    (blktraceSample balance greaterThan event ctx).1.rqTracks =
      (ctx.pastLost event.time).rqTracks := by
  rcases skipped with hwithin | hnone | hflush
  · simp only [blktraceSample, hwithin, if_true]
  · have hsame : (ctx.pastLost event.time).tpOf event.commonType = none := hnone
    simp only [blktraceSample, hsame, ite_self]
  · simp only [blktraceSample, Sample.track, hflush, if_true]
    split
    · rfl
    · cases (ctx.pastLost event.time).tpOf event.commonType <;> rfl

theorem blktraceSample_looked {event : Sample} {tp : BlockTp}
    (hwithin : ctx.withinLost event.time = false)
    (htp : ctx.tpOf event.commonType = some tp)
    (hsector : event.sector ≠ BitVec.allOnes 64) :
    (blktraceSample balance greaterThan event ctx).1.rqTracks =
      trackRequest balance (event.track tp)
        (ctx.pastLost event.time).rqTracks := by
  have hsame : (ctx.pastLost event.time).tpOf event.commonType = some tp := htp
  have hr : (event.track tp).sector ≠ BitVec.allOnes 64 := hsector
  simp only [blktraceSample, hwithin, Bool.false_eq_true, if_false, hsame, hr]
  cases (ctx.pastLost event.time).rqTracks.find (requestTrackNodeCmp (event.track tp)) <;> rfl

theorem blktraceSample_iff (event : Sample) (tracked : Tracked ctx.rqTracks) :
    Tracked (blktraceSample balance greaterThan event ctx).1.rqTracks ↔
      Allowed (.sample event) ctx := by
  have hpast : Tracked (ctx.pastLost event.time).rqTracks :=
    eventLostLoop_tracked event.time ctx.lostList tracked
  by_cases skipped : ctx.withinLost event.time = true ∨
      ctx.tpOf event.commonType = none ∨ event.sector = BitVec.allOnes 64
  · rw [blktraceSample_skipped balance greaterThan skipped]
    refine iff_of_true hpast ?_
    intro hwithin tp htp hsector
    rcases skipped with htrue | hnone | hflush
    · exact absurd (hwithin.symm.trans htrue) (by decide)
    · cases htp.symm.trans hnone
    · exact absurd hflush hsector
  · push Not at skipped
    obtain ⟨hwithin, hsome, hsector⟩ := skipped
    obtain ⟨tp, htp⟩ := Option.ne_none_iff_exists'.mp hsome
    have hwithin := Bool.eq_false_iff.mpr hwithin
    rw [blktraceSample_looked balance greaterThan hwithin htp hsector, trackRequest_iff hpast]
    constructor
    · intro fits _ tp' htp' _
      cases htp.symm.trans htp'
      exact fits
    · intro allowed
      exact allowed hwithin tp htp hsector

end

/-- Along a run the tracked requests stay disjoint and findable exactly when
every stored event has a proper range and meets at most one request. -/
theorem tracks_disjoint_iff (balance : SearchTree.Balance δ RequestTrack)
    (greaterThan : U64) (types : BlockTp → U64) (events : List Event) :
    (∀ past, past <+: events →
      ∃ ctx, run (step balance greaterThan) past (Ctx.init types) = some ctx ∧
        Sound ctx.rqTracks) ↔
      ∀ past event, past ++ [event] <+: events →
        ∀ ctx, run (step balance greaterThan) past (Ctx.init types) = some ctx →
          Allowed event ctx := by
  have hinit : Tracked (Ctx.init types : Ctx δ).rqTracks := Tracked.leaf
  refine run_always_iff (fun ctx : Ctx δ => Tracked ctx.rqTracks) (fun ctx => Sound ctx.rqTracks)
    Allowed (fun _ tracked => tracked.sound) ?_ ?_ hinit
  · intro event ctx tracked allowed
    cases event with
    | sample event =>
      exact ⟨_, rfl, (blktraceSample_iff balance greaterThan event tracked).mpr allowed⟩
    | lost ins lostStart lostEnd => exact ⟨_, rfl, tracked⟩
  · intro event ctx next tracked refused hstep sound
    cases event with
    | sample event =>
      cases hstep
      exact refused ((blktraceSample_iff balance greaterThan event tracked).mp sound.tracked)
    | lost ins lostStart lostEnd => exact refused trivial

def mergedInsert : List Event :=
  let sample := fun commonType time sector nrSector => Event.sample
    { commonType := commonType, time := time, dev := 8, sector := sector
      nrSector := nrSector }
  [sample 1 10 0 8, sample 1 20 8 8, sample 2 30 0 16]

/-- The merged range is written over one request and meets the other. -/
theorem merged_insert_meets : ∃ (ctx : Ctx Unit) (first second : RequestTrack),
      run (step (.plain RequestTrack) 0) mergedInsert
          (Ctx.init fun tp => BitVec.ofNat 64 (tp.index + 1)) = some ctx ∧
        ctx.rqTracks.toList = [first, second] ∧ first.Meets second := by
  refine ⟨_, _, _, rfl, rfl, ?_⟩
  exact ⟨by decide, by decide, by decide⟩

end Run

end PerfProf.Blktrace
