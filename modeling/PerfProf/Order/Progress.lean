import Mathlib.Algebra.BigOperators.Fin
import PerfProf.Order.Runs

namespace PerfProf.Order

variable {ι δ : Type}

def Mmap.unread (map : Mmap) : Nat := bytes map.log - map.start

@[simp] theorem Mmap.consume_unread (map : Mmap) :
    map.consume.unread = map.unread := by
  unfold consume
  dsimp only
  split <;> rfl

theorem Reader.unread (reader : Reader map before after) :
    map.unread = bytes after := by
  simp [Mmap.unread, reader.log, reader.start]

def unread [Fintype ι] (ev : ι → MmapEvent) : Nat := ∑ ins, (ev ins).map.unread

/-- A bound on the steps that the running call takes while nothing arrives. -/
def State.work [Fintype ι] (cfg : Config ι δ) (s : State ι δ) : Nat :=
  let left := unread s.ev + 8 * s.heap.length
  match s.phase with
  | .idle => 0
  | .unwind => 1 + s.heap.length
  | .read _ _ => 2 + left
  | .consume _ _ => 3 + left
  | .loop => 4 + left
  | .retry _ _ todo => 13 + 8 * todo.length + left
  | .heapInit todo => 6 + 8 * todo.length + left
  | .target _ _ => 7 + 8 * cfg.heapEventList.length + left

def Action.isAdvance : Action ι → Bool
  | .advance _ => true
  | _ => false

def Action.arriving : Action ι → Nat
  | .arrive _ record => record.size
  | _ => 0

variable {cfg : Config ι δ} {s next last : State ι δ} {ins : ι} [Fintype ι]
  [DecidableEq ι]

theorem unread_update (ins : ι)
    (hother : ∀ other, other ≠ ins → next.ev other = s.ev other) :
    unread next.ev + (s.ev ins).map.unread =
      unread s.ev + (next.ev ins).map.unread := by
  have hrest : ∑ other ∈ Finset.univ.erase ins, (next.ev other).map.unread =
      ∑ other ∈ Finset.univ.erase ins, (s.ev other).map.unread :=
    Finset.sum_congr rfl fun other member => by rw [hother other (Finset.ne_of_mem_erase member)]
  have hsplit := fun ev : ι → MmapEvent =>
    Finset.add_sum_erase _ (fun other => (ev other).map.unread) (Finset.mem_univ ins)
  simp only [unread, ← hsplit next.ev, ← hsplit s.ev, hrest]
  omega

theorem unread_setMap (s : State ι δ) (ins : ι) (map : Mmap) :
    unread (s.setMap ins map).ev + (s.ev ins).map.unread =
      unread s.ev + map.unread := by
  have hload := unread_update ins fun _ different => s.setMap_map_other map different
  rwa [State.setMap_map_self] at hload

attribute [local simp] State.work State.goto State.emit State.setMap State.setEvent State.countLost

theorem mmapEventInit_work (inv : Delivered cfg s)
    (hphase : s.phase = .heapInit (ins :: todo)) :
    (mmapEventInit ins todo s).work cfg < s.work cfg := by
  obtain ⟨before, after, reader⟩ := (inv.tracked ins).reader
  have hload := unread_setMap s ins (s.ev ins).map.readInit.1
  rw [reader.unread, reader.readInit.unread] at hload
  simp only [mmapEventInit]
  split_ifs
  all_goals simp [hphase] at hload ⊢
  all_goals omega

variable [DecidableEq δ]

theorem mmapEventRetry_work (inv : Delivered cfg s)
    (hphase : s.phase = .retry ins lost todo) :
    (mmapEventRetry cfg ins lost todo s).work cfg < s.work cfg := by
  have hnodup : (s.heap ++ ins :: todo).Nodup := by
    simpa [hphase, Phase.todo] using inv.ordered.nodup
  obtain ⟨before, after, reader, _⟩ := (inv.tracked ins).free fun held => nodup_fresh hnodup held.1
  unfold mmapEventRetry
  cases after with
  | nil =>
    obtain ⟨map, hread, _, hdone⟩ := reader.readEvent_nil
    have hload := unread_setMap s ins map.readDone
    rw [reader.unread, hdone.unread] at hload
    rw [hread]
    simp [hphase] at hload ⊢
    omega
  | cons record rest =>
    obtain ⟨map, writable, hread, _, hnext⟩ := reader.readEvent_cons
    have hsize := record.header_le
    have hbytes := reader.unread
    rw [bytes_cons] at hbytes
    have hload := unread_setMap s ins map.consume
    rw [Mmap.consume_unread, hnext.unread] at hload
    rw [hread]
    dsimp only
    split
    · rename_i time _
      obtain ⟨hmap, hothers, hheap, _⟩ := fixAtInit_frame cfg s ins
        ((s.ev ins).readAhead map (bytes before) record time writable)
      have hfixed := unread_update ins hothers
      rw [hmap] at hfixed
      change _ = unread s.ev + map.unread at hfixed
      rw [hnext.unread] at hfixed
      simp [State.push, hheap, hphase]
      omega
    · split
      all_goals
        simp [hphase] at hload ⊢
        omega
    · simp [hphase] at hload ⊢
      omega

theorem popEvent_work (hphase : s.phase = .loop) (position : Nat)
    (record : Record) (hmap : ev.map = (s.ev ins).map) :
    (popEvent cfg ins position record ev s).work cfg < s.work cfg := by
  obtain ⟨hev, hheap, hnext⟩ := popEvent_frame cfg s ins position record ev
  have hload := unread_update ins fun _ different => keepMono_other cfg s ev different
  rw [keepMono_map, hmap] at hload
  simp only [State.work, hev, hheap, hnext, hphase]
  omega

theorem processTop_work (hphase : s.phase = .loop)
    (htop : processTop cfg ins s = some next) : next.work cfg < s.work cfg := by
  have hstopped : 1 + s.heap.length < s.work cfg := by
    simp only [State.work, hphase]
    omega
  cases processTop_turned htop with
  | late | kept | paused => exact hstopped
  | popped hevent lostEnd pause => exact popEvent_work hphase _ _ rfl

omit [DecidableEq δ] in
theorem consumeStep_work (hphase : s.phase = .consume ins needBreak) :
    (consumeStep cfg ins needBreak s).work cfg < s.work cfg := by
  have hload := unread_setMap s ins (consumeMap cfg ins (s.ev ins))
  have hmap : (consumeMap cfg ins (s.ev ins)).unread = (s.ev ins).map.unread := by
    unfold consumeMap
    split <;> simp
  unfold consumeStep
  dsimp only
  split
  all_goals
    simp [hphase] at hload ⊢
    omega

theorem readStep_work (inv : Delivered cfg s)
    (hphase : s.phase = .read ins needBreak) :
    (readStep cfg ins needBreak s).work cfg < s.work cfg := by
  have hbusy : s.phase.busy = some ins := by rw [hphase]; rfl
  have hlength := List.length_erase_add_one (inv.current ins hbusy)
  obtain ⟨before, after, reader, _⟩ := (inv.tracked ins).free fun held => held.2 hbusy
  unfold readStep
  cases after with
  | nil =>
    obtain ⟨map, hread, _, hdone⟩ := reader.readEvent_nil
    have hload := unread_setMap s ins map.readDone
    rw [reader.unread, hdone.unread] at hload
    rw [hread]
    cases needBreak
    all_goals
      simp [State.pop, hphase] at hload ⊢
      omega
  | cons record rest =>
    obtain ⟨map, writable, hread, _, hnext⟩ := reader.readEvent_cons
    have hsize := record.header_le
    have hbytes := reader.unread
    rw [bytes_cons] at hbytes
    have hload := unread_setMap s ins map
    rw [hnext.unread] at hload
    rw [hread]
    dsimp only
    split
    · rename_i time _
      obtain ⟨hev, hheap⟩ := flushLost_frame ins (s.setEvent ins
        ((s.ev ins).readAhead map (bytes before) record time writable))
      have hload := unread_update ins fun _ different => s.setEvent_other
        ((s.ev ins).readAhead map (bytes before) record time writable) different
      rw [State.setEvent_self] at hload
      change _ = s.heap at hheap
      change _ = unread s.ev + map.unread at hload
      rw [hnext.unread] at hload
      cases needBreak
      all_goals
        simp [-State.setEvent, hphase, hev, hheap]
        omega
    · split
      all_goals
        simp [hphase] at hload ⊢
        omega
    · simp [hphase] at hload ⊢
      omega

theorem advance_work (inv : Delivered cfg s)
    (hstep : step cfg (.advance top) s = some next) :
    next.work cfg < s.work cfg := by
  cases step_stepped hstep with
  | target hphase =>
    rw [targetStep]
    split_ifs
    · simp only [State.work, State.goto, hphase]
      omega
    · simp only [State.work, hphase, beginHeap, List.length_nil]
      omega
  | filled hphase => simp [hphase]
  | init hphase => exact mmapEventInit_work inv hphase
  | retry hphase => exact mmapEventRetry_work inv hphase
  | empty hphase =>
    simp only [State.work, State.stop, hphase]
    omega
  | top hphase _ _ htop => exact processTop_work hphase htop
  | consume hphase => exact consumeStep_work hphase
  | read hphase => exact readStep_work inv hphase
  | unwind hphase =>
    rw [unwindStep]
    cases hheap : s.heap with
    | nil => simp [hphase, hheap]
    | cons ins rest => simp [hphase, hheap]

theorem step_work (inv : Delivered cfg s)
    (hstep : step cfg action s = some next)
    (hcall : ∀ target targetTm, action ≠ .call target targetTm) :
    next.work cfg + (if action.isAdvance then 1 else 0) ≤
      s.work cfg + action.arriving := by
  cases action with
  | arrive ins record =>
    cases step_stepped hstep with
    | @arrive _ _ map appended =>
      have hload := unread_setMap s ins map
      have hmap : map.unread ≤ (s.ev ins).map.unread + record.size := by
        unfold Mmap.append at appended
        split at appended
        · cases appended
          simp only [Mmap.unread, bytes_append, bytes_cons, bytes_nil]
          omega
        · cases appended
      simp only [State.work, State.setMap, State.setEvent, Action.arriving] at hload ⊢
      split <;> simp [Action.isAdvance] <;> omega
  | scribble ins map =>
    cases step_stepped hstep with
    | scribble old => cases (inv.plain _).symm.trans old
  | call target targetTm => exact absurd rfl (hcall target targetTm)
  | advance top => exact advance_work inv hstep

theorem run_work (inv : Delivered cfg s)
    (hrun : Data.run (step cfg) actions s = some last)
    (hcalls : ∀ target targetTm, .call target targetTm ∉ actions) :
    last.work cfg + actions.countP (·.isAdvance) ≤
      s.work cfg + (actions.map (·.arriving)).sum := by
  induction actions generalizing s with
  | nil =>
    cases hrun
    exact Nat.le_refl _
  | cons action rest ih =>
    obtain ⟨next, hstep, hrest⟩ := Data.run_cons.mp hrun
    have hhead := step_work inv hstep fun target targetTm same =>
      hcalls target targetTm (same ▸ List.mem_cons_self)
    have htail := ih (step_delivered inv hstep) hrest fun target targetTm member =>
      hcalls target targetTm (List.mem_cons_of_mem _ member)
    rw [List.countP_cons, List.map_cons, List.sum_cons]
    omega

omit [Fintype ι] in
theorem advance_enabled [Inhabited ι] (inv : Delivered cfg s)
    (hphase : s.phase ≠ .idle) :
    ∃ top next, step cfg (.advance top) s = some next := by
  by_cases hloop : s.phase = .loop ∧ s.heap ≠ []
  · obtain ⟨hloop, hheap⟩ := hloop
    obtain ⟨top, member, least⟩ := s.heap.toFinset.exists_min_image (fun ins => (s.ev ins).time)
      (List.toFinset_nonempty_iff _ |>.mpr hheap)
    simp only [List.mem_toFinset] at member least
    obtain ⟨event, hevent, _⟩ := inv.ordered.sampled top member
    refine ⟨top, ?_⟩
    simp only [step, advance, hloop, if_neg hheap, if_pos (And.intro member least), processTop,
      hevent]
    split_ifs
    · exact ⟨_, rfl⟩
    · split <;> exact ⟨_, rfl⟩
  · refine ⟨default, ?_⟩
    rw [step, advance]
    split <;> simp_all

theorem returns [Inhabited ι] (inv : Delivered cfg s) :
    ∃ (tops : List ι) (last : State ι δ),
      Data.run (step cfg) (tops.map .advance) s = some last ∧
      last.phase = .idle := by
  induction hwork : s.work cfg using Nat.strong_induction_on generalizing s with
  | _ work ih =>
    by_cases hphase : s.phase = .idle
    · exact ⟨[], s, rfl, hphase⟩
    · obtain ⟨top, next, hstep⟩ := advance_enabled inv hphase
      obtain ⟨tops, last, hrun, hlast⟩ := ih _ (hwork ▸ advance_work inv hstep)
        (step_delivered inv hstep) rfl
      exact ⟨top :: tops, last, Data.run_cons.mpr ⟨next, hstep, hrun⟩, hlast⟩

/-- In every reachable state the steps that a call still takes are bounded by
the bytes that are unread or arrive meanwhile, and it is never stuck before it
returns. -/
theorem order_process_ends [Inhabited ι] (cfg : Config ι δ)
    (mask flush shared : ι → Nat) (actions : List (Action ι)) (s : State ι δ)
    (hrun : Data.run (step cfg) actions (State.init fun ins =>
      Mmap.mapped false (mask ins) (flush ins) (shared ins)) = some s) :
    (∀ later last, (∀ target targetTm, .call target targetTm ∉ later) →
      Data.run (step cfg) later s = some last →
      later.countP (·.isAdvance) ≤ s.work cfg + (later.map (·.arriving)).sum) ∧
    ∃ (tops : List ι) (last : State ι δ),
      Data.run (step cfg) (tops.map .advance) s = some last ∧
      last.phase = .idle := by
  have inv := (run_delivered (State.init_delivered cfg mask flush shared) hrun).1
  refine ⟨fun later last hcalls hlater => ?_, returns inv⟩
  have hwork := run_work inv hlater hcalls
  omega

theorem order_process_ends_target :
    ∃ s : State Bool Unit, Data.run (step pairConfig) targetActions
        (State.init fun _ => Mmap.mapped false 4095 0 0) = some s ∧
      s.phase = .unwind ∧
      ∃ (tops : List Bool) (last : State Bool Unit),
        Data.run (step pairConfig) (tops.map .advance) s = some last ∧
        last.phase = .idle := by
  refine ⟨_, (Option.some_get ?_).symm, ?_, (order_process_ends pairConfig (fun _ => 4095)
    (fun _ => 0) (fun _ => 0) targetActions _ (Option.some_get _).symm).2⟩
  all_goals decide +kernel

end PerfProf.Order
