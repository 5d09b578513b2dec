import PerfProf.KvmExit.Sample

namespace PerfProf.KvmExit

open Data

def slot (ctx : Ctx) (heap : Bytes) (instance_ : Nat) : Bytes :=
  piece heap (slotOffset instance_) ctx.sampleSize

def Separate (ctx : Ctx) : Prop :=
  ∀ instance_ < ctx.nrIns, ∀ raw heap : Bytes, ctx.sampleSize ≤ raw.length →
    heap.length = ctx.nrIns * ctx.sampleSize →
    ∃ saved, save ctx instance_ raw heap = some saved ∧ ∀ other < ctx.nrIns, other ≠ instance_ →
        slot ctx saved other = slot ctx heap other

theorem separate_of_stride
    (stride : ctx.nrIns ≤ 1 ∨ ctx.sampleSize = sizeofSample) :
    Separate ctx := by
  intro instance_ hinstance raw heap hraw hheap
  have hlength : (raw.take ctx.sampleSize).length = ctx.sampleSize := by
    rw [List.length_take]
    omega
  have hinside : slotOffset instance_ + ctx.sampleSize ≤ heap.length := by
    rw [hheap, slotOffset]
    rcases stride with single | same
    · have hfirst : instance_ = 0 := by omega
      have hone : ctx.nrIns = 1 := by omega
      rw [hfirst, hone]
      omega
    · rw [same, ← Nat.succ_mul]
      exact Nat.mul_le_mul_right _ hinstance
  have hsave : save ctx instance_ raw heap = some (heap.take (slotOffset instance_) ++ (raw.take
      ctx.sampleSize ++ heap.drop (slotOffset instance_ + (raw.take ctx.sampleSize).length))) :=
      if_pos (by rw [hlength]; exact hinside)
  refine ⟨_, hsave, ?_⟩
  intro other hother different
  refine piece_store_apart hsave ?_
  rw [hlength]
  rcases stride with single | same
  · omega
  · rw [same, slotOffset, slotOffset, sizeofSample]
    omega

theorem stride_of_separate (separate : Separate ctx) :
    ctx.nrIns ≤ 1 ∨ ctx.sampleSize = sizeofSample := by
  by_contra apart
  push Not at apart
  obtain ⟨several, different⟩ := apart
  have hraw : ctx.sampleSize ≤ (List.replicate ctx.sampleSize (255 : UInt8)).length := by simp
  have hheap : (List.replicate (ctx.nrIns * ctx.sampleSize) (0 : UInt8)).length =
      ctx.nrIns * ctx.sampleSize := by simp
  have hlarger : sizeofSample ≤ ctx.sampleSize := by
    obtain ⟨saved, hsave, -⟩ := separate (ctx.nrIns - 1) (by omega) _ _ hraw hheap
    have hinside := (store_some hsave).1
    rw [hheap, slotOffset, List.length_take, List.length_replicate, Nat.min_self] at hinside
    obtain ⟨count, hcount⟩ : ∃ count, ctx.nrIns = count + 1 := ⟨ctx.nrIns - 1, by omega⟩
    rw [hcount, Nat.add_sub_cancel, Nat.succ_mul] at hinside
    exact Nat.le_of_mul_le_mul_left (Nat.le_of_add_le_add_right hinside) (by omega)
  have hroom : sizeofSample < ctx.nrIns * ctx.sampleSize :=
    Nat.lt_of_lt_of_le (by omega) (Nat.le_mul_of_pos_left _ (by omega))
  obtain ⟨saved, hsave, hsame⟩ := separate 0 (by omega) _ _ hraw hheap
  have hfirst := congrArg (fun bytes => bytes[0]?) (hsame 1 (by omega) (by decide))
  obtain ⟨-, rfl⟩ := store_some hsave
  have hsmaller : sizeofSample < ctx.sampleSize := by omega
  simp only [slot, piece, overwrite, slotOffset, Nat.zero_mul, Nat.one_mul, Nat.add_zero,
    List.take_zero, List.nil_append, List.getElem?_take_of_lt (Nat.zero_lt_of_lt hsmaller),
    List.getElem?_drop, List.getElem?_replicate, hroom, if_true] at hfirst
  rw [List.getElem?_append_left (by simpa using hsmaller)] at hfirst
  simp [hsmaller] at hfirst

variable {read : Nat → Nat → Option Nat} {size : Nat}

theorem exitReason_reads (htype : read 28 2 = some ctx.kvmExit.toNat)
    (hsize : read 24 4 = some size) (hknown : ctx.kvmExitSize.toNat ≤ size)
    (hreason : exitReason ctx read = some result) :
    (∃ value, read (dataOffset + 16) 8 = some value) ∧
    (size ≠ 28 → ∃ value, read (dataOffset + 24) 4 = some value) := by
  simp only [exitReason, htype, hsize, Option.bind_eq_bind, Option.bind_some, if_true] at hreason
  by_cases hsmall : size = 28
  · simp only [hsmall, if_true, Option.bind_eq_some_iff] at hreason
    obtain ⟨_, -, rip, hrip, -⟩ := hreason
    exact ⟨⟨rip, hrip⟩, fun large => absurd hsmall large⟩
  · simp only [hsmall, if_false, Nat.not_lt.mpr hknown, Option.bind_eq_some_iff] at hreason
    obtain ⟨_, -, isa, hisa, rip, hrip, -⟩ := hreason
    exact ⟨⟨rip, hrip⟩, fun _ => ⟨isa, hisa⟩⟩

theorem exitReason_known (htype : read 28 2 = some ctx.kvmExit.toNat)
    (hsize : read 24 4 = some size) (hknown : ctx.kvmExitSize.toNat ≤ size)
    (readable : ∀ offset width, offset + width ≤ dataOffset + 24 ∨
        size ≠ 28 ∧ offset + width ≤ dataOffset + 28 →
      ∃ value, read offset width = some value) :
    ∃ reason, exitReason ctx read = some (some reason) := by
  obtain ⟨rip, hrip⟩ := readable (dataOffset + 16) 8 (.inl (by omega))
  simp only [exitReason, htype, hsize, Option.bind_eq_bind, Option.bind_some, if_true]
  by_cases hsmall : size = 28
  · obtain ⟨reason, hreason⟩ := readable (dataOffset + 12) 4 (.inl (by omega))
    simp [hsmall, hreason, hrip]
  · obtain ⟨reason, hreason⟩ := readable (dataOffset + 8) 4 (.inl (by omega))
    obtain ⟨isa, hisa⟩ := readable (dataOffset + 24) 4 (.inr ⟨hsmall, by omega⟩)
    simp [hsmall, Nat.not_lt.mpr hknown, hreason, hisa, hrip]

def exitOf (ctx : Ctx) (instance_ : Nat) : Event → Option Bytes
  | .sample other raw =>
    if other = instance_ ∧ commonType raw = ctx.kvmExit.toNat then some raw
    else none
  | .lost _ => none

def latestExit (ctx : Ctx) (past : List Event) (instance_ : Nat) :
    Option Bytes :=
  (past.filterMap (exitOf ctx instance_)).getLast?

theorem latestExit_snoc (ctx : Ctx) (past : List Event) (event : Event)
    (instance_ : Nat) :
    latestExit ctx (past ++ [event]) instance_ =
      (exitOf ctx instance_ event).or (latestExit ctx past instance_) := by
  unfold latestExit
  rw [List.filterMap_append]
  cases hexit : exitOf ctx instance_ event with
  | none => simp [hexit]
  | some raw => simp [hexit]

/-- Whatever happened before, a sample is handled inside the table, and a
latency is the time since the latest kvm_exit of its instance. -/
def LatenciesRight {ctx : Ctx} (kernel : Kernel ctx) : Prop :=
  ∀ past : List Event, (∀ event ∈ past, kernel.Delivers event) →
    ∀ instance_ raw, kernel.Delivers (.sample instance_ raw) →
      ∃ s next latencies, run (step ctx) past (State.init ctx) = some s ∧
        kvmExitSample ctx instance_ raw s = some (next, latencies) ∧
        ∀ latency ∈ latencies, ∃ exit, latestExit ctx past instance_ = some exit ∧
            time exit < time raw ∧ latency.delta = time raw - time exit

def Fits {ctx : Ctx} (kernel : Kernel ctx) : Prop :=
  (ctx.nrIns = 1 → dataOffset + 24 ≤ ctx.sampleSize ∧
    (kernel.recordSize ≠ 28 → dataOffset + 28 ≤ ctx.sampleSize)) ∧
  (2 ≤ ctx.nrIns → ctx.sampleSize = sizeofSample)

theorem Kernel.sampleSize (kernel : Kernel ctx) :
    ctx.sampleSize = dataOffset + ctx.kvmExitSize.toNat := by
  have hfields := kernel.fields
  have hbound := kernel.bound
  rw [Ctx.sampleSize, BitVec.toNat_add, BitVec.toNat_ofNat]
  unfold dataOffset at *
  omega

section Run

variable {ctx : Ctx} (kernel : Kernel ctx)

structure Saved (past : List Event) (s : State) : Prop where
  size : s.perinsKvmExit.length = ctx.nrIns * ctx.sampleSize
  latest : ∀ instance_ < ctx.nrIns, s.perinsKvmExitValid instance_ = true →
    ∃ raw, latestExit ctx past instance_ = some raw ∧ kernel.Delivers (.sample instance_ raw) ∧
      commonType raw = ctx.kvmExit.toNat ∧
      slot ctx s.perinsKvmExit instance_ = raw.take ctx.sampleSize

variable {kernel}

theorem Fits.stride (fits : Fits kernel) :
    ctx.nrIns ≤ 1 ∨ ctx.sampleSize = sizeofSample := by
  rcases Nat.lt_or_ge ctx.nrIns 2 with few | several
  · exact .inl (by omega)
  · exact .inr (fits.2 several)

theorem Fits.inside (fits : Fits kernel) (hinstance : instance_ < ctx.nrIns) :
    slotOffset instance_ + ctx.sampleSize ≤ ctx.nrIns * ctx.sampleSize ∧
    dataOffset + 24 ≤ ctx.sampleSize ∧
    (kernel.recordSize ≠ 28 → dataOffset + 28 ≤ ctx.sampleSize) := by
  rcases Nat.lt_or_ge ctx.nrIns 2 with few | several
  · have hone : ctx.nrIns = 1 := by omega
    have hfirst : instance_ = 0 := by omega
    refine ⟨?_, fits.1 hone⟩
    rw [hone, hfirst, slotOffset]
    omega
  · have hsize := fits.2 several
    rw [hsize]
    refine ⟨?_, by decide, fun _ => by decide⟩
    rw [slotOffset, ← Nat.succ_mul]
    exact Nat.mul_le_mul_right _ hinstance

variable {past : List Event} {s : State} {instance_ : Nat} {raw : Bytes}

theorem load_slot (fits : Fits kernel) (saved : Saved kernel past s)
    (hinstance : instance_ < ctx.nrIns)
    (hslot : slot ctx s.perinsKvmExit instance_ = exit.take ctx.sampleSize)
    (bound : offset + width ≤ ctx.sampleSize) :
    load s.perinsKvmExit (slotOffset instance_ + offset) width =
      some (field exit offset width) := by
  have hinside : slotOffset instance_ + ctx.sampleSize ≤
      s.perinsKvmExit.length := saved.size ▸ (fits.inside hinstance).1
  have hsame : (exit.take ctx.sampleSize).take ctx.sampleSize = exit.take ctx.sampleSize := by
    rw [List.take_take, Nat.min_self]
  rw [load_piece hinside bound]
  exact congrArg some ((congrArg (field · offset width) hslot).trans (field_take hsame bound))

theorem kvmExitSample_saves (delivers : kernel.Delivers (.sample instance_ raw))
    (htype : commonType raw = ctx.kvmExit.toNat)
    (hsave : save ctx instance_ raw s.perinsKvmExit = some heap) :
    kvmExitSample ctx instance_ raw s =
      some ({ s.setValid instance_ true with perinsKvmExit := heap }, []) := by
  have hknown : ctx.kvmExitSize.toNat ≤ rawSize raw := delivers.2.2 htype ▸ kernel.fields
  have hread : (fun offset width => some (field raw offset width)) 28 2 =
      some ctx.kvmExit.toNat := congrArg some htype
  obtain ⟨reason, hreason⟩ := exitReason_known hread rfl hknown fun offset width _ => ⟨_, rfl⟩
  simp only [kvmExitSample, htype, if_true, saveExit, hreason, hsave,
    Option.bind_eq_bind, Option.bind_some]
  rfl

theorem sampleSize_le (delivers : kernel.Delivers (.sample instance_ raw))
    (htype : commonType raw = ctx.kvmExit.toNat) :
    ctx.sampleSize ≤ raw.length := by
  obtain ⟨-, hlength, hsize⟩ := delivers
  have hfields := kernel.fields
  rw [hsize htype] at hlength
  rw [kernel.sampleSize]
  omega

theorem kvmExitSample_exit (fits : Fits kernel) (saved : Saved kernel past s)
    (delivers : kernel.Delivers (.sample instance_ raw))
    (htype : commonType raw = ctx.kvmExit.toNat) :
    ∃ next, kvmExitSample ctx instance_ raw s = some (next, []) ∧
      Saved kernel (past ++ [.sample instance_ raw]) next := by
  have hraw := sampleSize_le delivers htype
  obtain ⟨heap, hsave, hothers⟩ := separate_of_stride fits.stride instance_
    delivers.1 raw s.perinsKvmExit hraw saved.size
  have htake : (raw.take ctx.sampleSize).length = ctx.sampleSize := by
    rw [List.length_take]
    omega
  refine ⟨{ s.setValid instance_ true with perinsKvmExit := heap }, ?_, ?_, ?_⟩
  · exact kvmExitSample_saves delivers htype hsave
  · exact (length_store hsave).trans saved.size
  · intro other hother hvalid
    simp only [State.setValid] at hvalid
    by_cases same : other = instance_
    · subst same
      refine ⟨raw, ?_, delivers, htype, ?_⟩
      · rw [latestExit_snoc, exitOf, if_pos ⟨rfl, htype⟩]
        rfl
      · have hback := piece_store hsave
        rw [htake] at hback
        exact hback
    · rw [if_neg same] at hvalid
      obtain ⟨exit, hlatest, hdelivers, hexit, hslot⟩ := saved.latest other hother hvalid
      refine ⟨exit, ?_, hdelivers, hexit, ?_⟩
      · rw [latestExit_snoc, exitOf, if_neg fun both => same both.1.symm]
        exact hlatest
      · exact (hothers other hother same).trans hslot

theorem Saved.unchanged (saved : Saved kernel past s)
    (hexit : ∀ other, exitOf ctx other event = none)
    (hheap : next.perinsKvmExit = s.perinsKvmExit)
    (hvalid : ∀ other, next.perinsKvmExitValid other = true →
      s.perinsKvmExitValid other = true) :
    Saved kernel (past ++ [event]) next where
  size := hheap ▸ saved.size
  latest := by
    intro other hother valid
    rw [latestExit_snoc, hexit other, Option.none_or, hheap]
    exact saved.latest other hother (hvalid other valid)

theorem processFast_saved (raw : Bytes) (fits : Fits kernel)
    (saved : Saved kernel past s) (hinstance : instance_ < ctx.nrIns)
    (hdelivers : kernel.Delivers (.sample instance_ exit))
    (htype : commonType exit = ctx.kvmExit.toNat)
    (hslot : slot ctx s.perinsKvmExit instance_ = exit.take ctx.sampleSize) :
    ∃ latency, processFast ctx instance_ (time exit) raw s.perinsKvmExit =
        some [latency] ∧
      latency.delta = time raw - time exit := by
  obtain ⟨-, hroom, hlarge⟩ := fits.inside hinstance
  have hsize := hdelivers.2.2 htype
  have hread : ∀ offset width, offset + width ≤ ctx.sampleSize →
      load s.perinsKvmExit (slotOffset instance_ + offset) width = some (field exit offset width) :=
    fun offset width => load_slot fits saved hinstance hslot
  have hreadType : load s.perinsKvmExit (slotOffset instance_ + 28) 2 = some ctx.kvmExit.toNat :=
    (hread 28 2 (Nat.le_trans (by decide) hroom)).trans (congrArg some htype)
  have hreadSize : load s.perinsKvmExit (slotOffset instance_ + 24) 4 =
      some (rawSize exit) := hread 24 4 (Nat.le_trans (by decide) hroom)
  obtain ⟨reason, hreason⟩ := exitReason_known hreadType hreadSize (hsize ▸ kernel.fields)
    fun offset width inside => ⟨_, hread offset width (by
      rcases inside with small | ⟨large, inside⟩
      · omega
      · exact Nat.le_trans inside (hlarge (hsize ▸ large)))⟩
  refine ⟨latencyOf ctx instance_ (time exit) raw reason, ?_, rfl⟩
  exact congrArg (Option.map _) hreason

theorem endExit_saved (raw : Bytes) (fits : Fits kernel)
    (saved : Saved kernel past s) (hinstance : instance_ < ctx.nrIns) :
    ∃ next latencies, endExit ctx instance_ raw s = some (next, latencies) ∧
      next.perinsKvmExit = s.perinsKvmExit ∧
      (∀ other, next.perinsKvmExitValid other = true →
        s.perinsKvmExitValid other = true) ∧
      ∀ latency ∈ latencies, ∃ exit, latestExit ctx past instance_ = some exit ∧
        time exit < time raw ∧
        latency.delta = time raw - time exit := by
  cases hvalid : s.perinsKvmExitValid instance_ with
  | false =>
    refine ⟨s, [], ?_, rfl, fun _ valid => valid, fun _ hmem => absurd hmem List.not_mem_nil⟩
    simp [endExit, hvalid]
  | true =>
    obtain ⟨exit, hlatest, hdelivers, htype, hslot⟩ := saved.latest instance_ hinstance hvalid
    have hroom := (fits.inside hinstance).2.1
    unfold dataOffset at hroom
    have htid : load s.perinsKvmExit (slotOffset instance_ + 4) 4 =
        some (tid exit) := load_slot fits saved hinstance hslot (by omega)
    have htime : load s.perinsKvmExit (slotOffset instance_ + 8) 8 =
        some (time exit) := load_slot fits saved hinstance hslot (by omega)
    by_cases hends : tid raw = tid exit ∧ time exit < time raw
    · obtain ⟨latency, hfast, hdelta⟩ :=
        processFast_saved raw fits saved hinstance hdelivers htype hslot
      refine ⟨s.setValid instance_ false, [latency], ?_, rfl, ?_, ?_⟩
      · simp only [endExit, hvalid, if_true, htid, htime,
          Option.bind_eq_bind, Option.bind_some, hends, and_self, hfast]
        rfl
      · intro other valid
        simp only [State.setValid] at valid
        split at valid
        · cases valid
        · exact valid
      · intro other hother
        rw [List.mem_singleton.mp hother]
        exact ⟨exit, hlatest, hends.2, hdelta⟩
    · refine ⟨s, [], ?_, rfl, fun _ valid => valid, fun _ hmem => absurd hmem List.not_mem_nil⟩
      simp only [endExit, hvalid, if_true, htid, htime,
        Option.bind_eq_bind, Option.bind_some, hends, if_false]
      rfl

theorem kvmExitSample_saved (fits : Fits kernel) (saved : Saved kernel past s)
    (delivers : kernel.Delivers (.sample instance_ raw)) :
    ∃ next latencies,
      kvmExitSample ctx instance_ raw s = some (next, latencies) ∧
      Saved kernel (past ++ [.sample instance_ raw]) next ∧
      ∀ latency ∈ latencies, ∃ exit, latestExit ctx past instance_ = some exit ∧
        time exit < time raw ∧
        latency.delta = time raw - time exit := by
  by_cases htype : commonType raw = ctx.kvmExit.toNat
  · obtain ⟨next, hsample, hnext⟩ := kvmExitSample_exit fits saved delivers htype
    exact ⟨next, [], hsample, hnext, fun _ hmem => absurd hmem List.not_mem_nil⟩
  · have hexit : ∀ other, exitOf ctx other (.sample instance_ raw) = none :=
      fun other => if_neg fun both => htype both.2
    by_cases hentry : commonType raw = ctx.kvmEntry.toNat
    · obtain ⟨next, latencies, hend, hheap, hvalid, hright⟩ :=
        endExit_saved raw fits saved delivers.1
      refine ⟨next, latencies, ?_, saved.unchanged hexit hheap hvalid, hright⟩
      rw [kvmExitSample, if_neg htype, if_pos hentry, hend]
    · refine ⟨s, [], ?_, saved.unchanged hexit rfl fun _ valid => valid,
        fun _ hmem => absurd hmem List.not_mem_nil⟩
      rw [kvmExitSample, if_neg htype, if_neg hentry]

theorem run_saved (fits : Fits kernel)
    (delivers : ∀ event ∈ past, kernel.Delivers event) :
    ∃ s, run (step ctx) past (State.init ctx) = some s ∧
      Saved kernel past s := by
  induction past using List.reverseRecOn with
  | nil =>
    refine ⟨_, rfl, List.length_replicate, ?_⟩
    intro _ _ valid
    cases valid
  | append_singleton past event ih =>
    obtain ⟨s, hrun, saved⟩ := ih fun event hevent => delivers event (List.mem_append_left _ hevent)
    have hlast := delivers event (List.mem_append_right _ (by simp))
    cases event with
    | sample instance_ raw =>
      obtain ⟨next, latencies, hsample, hnext, -⟩ := kvmExitSample_saved fits saved hlast
      refine ⟨next, run_snoc.mpr ⟨s, hrun, ?_⟩, hnext⟩
      rw [step, handle, hsample, Option.map_some]
    | lost instance_ =>
      refine ⟨_, run_snoc.mpr ⟨s, hrun, rfl⟩, saved.unchanged (fun _ => rfl) rfl ?_⟩
      intro other valid
      simp only [State.setValid] at valid
      split at valid
      · cases valid
      · exact valid

end Run

section Needed

variable {ctx : Ctx} (kernel : Kernel ctx)

def exitRecord : Bytes :=
  List.replicate 24 0 ++ (encode 4 kernel.recordSize ++
    (encode 2 ctx.kvmExit.toNat ++ List.replicate kernel.recordSize 0))

def entryRecord (ctx : Ctx) : Bytes :=
  List.replicate 8 0 ++ (encode 8 1 ++ (List.replicate 8 0 ++
    (encode 4 2 ++ (encode 2 ctx.kvmEntry.toNat ++ []))))

theorem commonType_exitRecord :
    commonType (exitRecord kernel) = ctx.kvmExit.toNat := by
  have hsmall : ctx.kvmExit.toNat < 256 ^ 2 := ctx.kvmExit.isLt
  have hfield := field_encode hsmall (List.replicate 24 0 ++ encode 4 kernel.recordSize)
    (List.replicate kernel.recordSize 0)
  simpa [commonType, exitRecord] using hfield

theorem rawSize_exitRecord :
    rawSize (exitRecord kernel) = kernel.recordSize := by
  have hbound := kernel.bound
  have hsmall : kernel.recordSize < 256 ^ 4 := by omega
  have hfield := field_encode hsmall (List.replicate 24 0)
    (encode 2 ctx.kvmExit.toNat ++ List.replicate kernel.recordSize 0)
  simpa [rawSize, exitRecord] using hfield

theorem commonType_entryRecord :
    commonType (entryRecord ctx) = ctx.kvmEntry.toNat := by
  have hsmall : ctx.kvmEntry.toNat < 256 ^ 2 := ctx.kvmEntry.isLt
  have hfield := field_encode hsmall (List.replicate 8 0 ++ encode 8 1 ++
    List.replicate 8 0 ++ encode 4 2) []
  simpa [commonType, entryRecord] using hfield

theorem rawSize_entryRecord : rawSize (entryRecord ctx) = 2 := by
  have hfield := field_encode (show 2 < 256 ^ 4 by decide) (List.replicate 8 0 ++ encode 8 1 ++
    List.replicate 8 0) (encode 2 ctx.kvmEntry.toNat)
  simpa [rawSize, entryRecord] using hfield

theorem records_match : tid (entryRecord ctx) = tid (exitRecord kernel) ∧
      time (exitRecord kernel) < time (entryRecord ctx) := by
  have hentryTid : tid (entryRecord ctx) = 0 := (field_append (by simp) _).trans (field_zeros 8 4 4)
  have hexitTid : tid (exitRecord kernel) = 0 :=
    (field_append (by simp) _).trans (field_zeros 24 4 4)
  have hexitTime : time (exitRecord kernel) = 0 :=
    (field_append (by simp) _).trans (field_zeros 24 8 8)
  have hentryTime : time (entryRecord ctx) = 1 := by
    have hfield := field_encode (show 1 < 256 ^ 8 by decide) (List.replicate 8 0) (List.replicate 8
      0 ++ (encode 4 2 ++ (encode 2 ctx.kvmEntry.toNat ++ [])))
    simpa [time, entryRecord] using hfield
  omega

theorem delivers_exitRecord (single : ctx.nrIns = 1) :
    kernel.Delivers (.sample 0 (exitRecord kernel)) := by
  refine ⟨by omega, ?_, fun _ => rawSize_exitRecord kernel⟩
  rw [rawSize_exitRecord]
  simp only [exitRecord, List.length_append, List.length_replicate, length_encode, dataOffset]
  omega

theorem delivers_entryRecord (single : ctx.nrIns = 1) :
    kernel.Delivers (.sample 0 (entryRecord ctx)) := by
  refine ⟨by omega, ?_, ?_⟩
  · rw [rawSize_entryRecord]
    simp [entryRecord, dataOffset]
  · intro same
    rw [commonType_entryRecord] at same
    exact absurd (BitVec.toNat_inj.mp same.symm) ctx.distinct

theorem load_inside (hload : load heap offset width = some value) :
    offset + width ≤ heap.length ∧ value = field heap offset width := by
  unfold load at hload
  split at hload
  · cases hload
    exact ⟨by assumption, rfl⟩
  · cases hload

theorem reads_needed {valid : Nat → Bool} (hvalid : valid 0 = true)
    (hheap : heap.length = ctx.sampleSize)
    (hsaved : ∀ offset width, offset + width ≤ ctx.sampleSize →
      field heap offset width = field (exitRecord kernel) offset width)
    (hend : endExit ctx 0 (entryRecord ctx)
      { perinsKvmExit := heap, perinsKvmExitValid := valid } = some result) :
    dataOffset + 24 ≤ ctx.sampleSize ∧
      (kernel.recordSize ≠ 28 → dataOffset + 28 ≤ ctx.sampleSize) := by
  simp only [endExit, hvalid, if_true, Option.bind_eq_bind,
    Option.bind_eq_some_iff, slotOffset, Nat.zero_mul, Nat.zero_add] at hend
  obtain ⟨exitTid, htid, exitTime, htime, hend⟩ := hend
  obtain ⟨hinsideTid, hexitTid⟩ := load_inside htid
  obtain ⟨hinsideTime, hexitTime⟩ := load_inside htime
  rw [hexitTid, hexitTime, hsaved 4 4 (by omega), hsaved 8 8 (by omega)] at hend
  have hmatch : tid (entryRecord ctx) = field (exitRecord kernel) 4 4 ∧ field (exitRecord kernel) 8
      8 < time (entryRecord ctx) := records_match kernel
  simp only [hmatch, and_self, if_true, processFast, Option.bind_eq_some_iff,
    Option.map_eq_some_iff, slotOffset, Nat.zero_mul, Nat.zero_add] at hend
  obtain ⟨-, ⟨reason, hreason, -⟩, -⟩ := hend
  have hreads := hreason
  simp only [exitReason, Option.bind_eq_bind, Option.bind_eq_some_iff] at hreads
  obtain ⟨type, htype, hreads⟩ := hreads
  have hinsideType := (load_inside htype).1
  have htype : load heap 28 2 = some ctx.kvmExit.toNat := by
    rw [htype, (load_inside htype).2, hsaved 28 2 (by omega)]
    exact congrArg some (commonType_exitRecord kernel)
  have hsize : load heap 24 4 = some kernel.recordSize := by
    rw [load, if_pos (by omega), hsaved 24 4 (by omega)]
    exact congrArg some (rawSize_exitRecord kernel)
  obtain ⟨⟨rip, hrip⟩, hisa⟩ := exitReason_reads htype hsize kernel.fields hreason
  refine ⟨hheap ▸ (load_inside hrip).1, fun large => ?_⟩
  obtain ⟨isa, hisa⟩ := hisa large
  exact hheap ▸ (load_inside hisa).1

theorem single_needed (right : LatenciesRight kernel) (single : ctx.nrIns = 1) :
    dataOffset + 24 ≤ ctx.sampleSize ∧
    (kernel.recordSize ≠ 28 → dataOffset + 28 ≤ ctx.sampleSize) := by
  have hdelivers := delivers_exitRecord kernel single
  have htype := commonType_exitRecord kernel
  have hentry : commonType (entryRecord ctx) ≠ ctx.kvmExit.toNat := by
    rw [commonType_entryRecord]
    exact fun same => ctx.distinct (BitVec.toNat_inj.mp same.symm)
  obtain ⟨s, next, latencies, hrun, hsample, -⟩ := right [.sample 0 (exitRecord kernel)] (by simpa
    using hdelivers) 0 (entryRecord ctx) (delivers_entryRecord kernel single)
  rw [kvmExitSample, if_neg hentry, if_pos (commonType_entryRecord)] at hsample
  have hlength := sampleSize_le hdelivers htype
  obtain ⟨heap, hsave, -⟩ := separate_of_stride (.inl (by omega)) 0 (by omega) (exitRecord kernel)
    (State.init ctx).perinsKvmExit hlength List.length_replicate
  have hs : run (step ctx) [.sample 0 (exitRecord kernel)] (State.init ctx) =
      some { (State.init ctx).setValid 0 true with perinsKvmExit := heap } := by
    rw [run, step, handle, kvmExitSample_saves hdelivers htype hsave]
    rfl
  cases hs.symm.trans hrun
  refine reads_needed kernel rfl ?_ ?_ hsample
  · rw [length_store hsave]
    exact List.length_replicate.trans (by rw [single, Nat.one_mul])
  · intro offset width inside
    have hback := piece_store hsave
    rw [List.length_take, Nat.min_eq_left hlength, piece] at hback
    exact field_take hback inside

/-- The slots stay apart and the latencies right exactly for one instance whose
slot holds what is read, or a record size that makes both strides equal. -/
theorem slots_kept_iff :
    Separate ctx ∧ LatenciesRight kernel ↔ Fits kernel := by
  constructor
  · rintro ⟨separate, right⟩
    refine ⟨single_needed kernel right, fun several => ?_⟩
    rcases stride_of_separate separate with few | same
    · omega
    · exact same
  · intro fits
    refine ⟨separate_of_stride fits.stride, ?_⟩
    intro past hpast instance_ raw delivers
    obtain ⟨s, hrun, saved⟩ := run_saved fits hpast
    obtain ⟨next, latencies, hsample, -, hright⟩ := kvmExitSample_saved fits saved delivers
    exact ⟨s, next, latencies, hrun, hsample, hright⟩

end Needed

def twoInstances (size : BitVec 16) : Ctx :=
  { nrIns := 2, kvmExitSize := size, kvmExit := 1, kvmEntry := 2
    perins := false, distinct := by decide }

def fiftyTwo : Kernel (twoInstances 52) where
  recordSize := 52
  fields := by decide
  bound := by decide

theorem slots_kept_fiftyTwo :
    Separate (twoInstances 52) ∧ LatenciesRight fiftyTwo :=
  (slots_kept_iff fiftyTwo).mpr ⟨fun single => absurd single (by decide), fun _ => rfl⟩

def emptyTable (size : BitVec 16) : Bytes :=
  (State.init (twoInstances size)).perinsKvmExit

/-- A kvm_exit of 60 bytes runs into the slot of the next instance, and one of
24 bytes leaves the table. -/
theorem other_sizes_collide :
    ((save (twoInstances 60) 0 (List.replicate 88 255) (emptyTable 60)).map fun
      saved => decide (slot (twoInstances 60) saved 1 =
        slot (twoInstances 60) (emptyTable 60) 1)) = some false ∧
    save (twoInstances 24) 1 (List.replicate 52 255) (emptyTable 24) =
      none := by
  decide +kernel

end PerfProf.KvmExit
