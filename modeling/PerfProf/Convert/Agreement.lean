import PerfProf.Convert.Offsets

namespace PerfProf.Convert

open Data

theorem Evsel.readSize_eq_iff (evsel : Evsel) (nr : Nat) :
    evsel.readSize = Evsel.readSize { evsel with nrMembers := nr } ↔
      (evsel.attr.group = true → nr = evsel.nrMembers) := by
  rw [readSize_eq, readSize_eq]
  cases hgroup : evsel.attr.group with
  | false => simp
  | true =>
    simp only [if_true, forall_const]
    constructor
    · intro heq
      have hmul := Nat.add_left_cancel heq
      exact (Nat.eq_of_mul_eq_mul_left (by omega) hmul).symm
    · intro heq
      rw [heq]

namespace Record

variable {evsel : Evsel} (record : Record evsel)

/-- The AUX data is where the code has it; behind the values of a group their
number is the one the evsel was given; and behind a branch stack there is
nothing in it apart from its entries. -/
def Regular : Prop :=
  record.AuxPlaced ∧ (.read ∈ record.parts → record.parts.getLast? ≠ some .read →
      evsel.attr.group = true → record.content.siblings.length + 1 = evsel.nrMembers) ∧
    (.branchStack ∈ record.parts →
      record.parts.getLast? ≠ some .branchStack → record.content.branchExtra = 0)

theorem placed_iff_regular : record.Placed ↔ record.Regular := by
  constructor
  · intro placed
    have haux := record.auxPlaced_of_placed placed
    have hwidths := (record.placed_iff_taken haux).mp placed
    refine ⟨haux, ?_, ?_⟩
    · intro hread hlast
      obtain ⟨front, next, back, hparts⟩ := (exists_next record.nodup_parts hread).mp hlast
      have hwidth := hwidths front .read next back hparts
      rw [width_read] at hwidth
      exact (evsel.readSize_eq_iff _).mp hwidth
    · intro hbranch hlast
      obtain ⟨front, next, back, hparts⟩ := (exists_next record.nodup_parts hbranch).mp hlast
      have hwidth := hwidths front .branchStack next back hparts
      rw [width_branchStack, taken] at hwidth
      omega
  · rintro ⟨haux, hread, hbranch⟩
    refine (record.placed_iff_taken haux).mpr ?_
    intro front part next back hparts
    have hmem : part ∈ record.parts := by simp [hparts]
    have hlast := (exists_next record.nodup_parts hmem).mpr ⟨front, next, back, hparts⟩
    cases part with
    | read =>
      rw [width_read]
      exact (evsel.readSize_eq_iff _).mpr (hread hmem hlast)
    | branchStack =>
      rw [width_branchStack, hbranch hmem hlast]
      rfl
    | _ => rfl

end Record

section Positions

variable {evlist : List Evsel} {sampleType : BitVec 64}

theorem posSampleType_eq
    (hpos : posSampleType evlist sampleType onlyone = some (result, last)) :
    (sampleType ≠ 0 → result = sampleType) ∧
    ∀ evsel ∈ evlist, evsel.attr.samplePeriod ≠ 0 →
      evsel.attr.sampleType &&& posMask = result ∨
        evsel.attr.sampleType &&& posMask = 0 := by
  induction evlist generalizing sampleType onlyone with
  | nil =>
    cases hpos
    exact ⟨fun _ => rfl, nofun⟩
  | cons first rest ih =>
    rw [posSampleType] at hpos
    split at hpos
    case isTrue hperiod =>
      obtain ⟨hsame, hrest⟩ := ih hpos
      refine ⟨hsame, List.forall_mem_cons.mpr ⟨fun hsampling => ?_, hrest⟩⟩
      exact absurd hperiod hsampling
    split at hpos
    case isTrue hzero =>
      obtain ⟨hsame, hrest⟩ := ih hpos
      refine ⟨fun hne => absurd hzero hne, List.forall_mem_cons.mpr ⟨fun _ => ?_, hrest⟩⟩
      by_cases hnone : first.attr.sampleType &&& posMask = 0
      · exact Or.inr hnone
      · exact Or.inl (hsame hnone).symm
    case isFalse hne =>
      split at hpos
      · cases hpos
      case isFalse hequal =>
        obtain ⟨hsame, hrest⟩ := ih hpos
        refine ⟨hsame, List.forall_mem_cons.mpr ⟨fun _ => Or.inl ?_, hrest⟩⟩
        exact (not_not.mp hequal).symm.trans (hsame hne).symm

variable {evsel : Evsel} {cache : Cache} {member : Member}

def Pos.kept (pos : Pos) : List (Part × Option Nat) :=
  [(.pid, pos.tidPos), (.time, pos.timePos), (.id, pos.idPos), (.cpu, pos.cpuPos)]

theorem advance_fixed (data : Bytes) (sampled : Entry → Bool)
    {entries : List Entry} (fixed : ∀ entry ∈ entries, entry.sz ≠ 0)
    (place : Nat) :
    advance (Entry.step data) (entries.filter sampled) place =
      place +
        (entries.map fun entry =>
          if sampled entry then entry.pad + entry.sz else 0).sum := by
  induction entries generalizing place with
  | nil => rfl
  | cons entry rest ih =>
    have hrest := ih fun other hother => fixed other (List.mem_cons_of_mem _ hother)
    have hfixed := fixed entry List.mem_cons_self
    rw [List.map_cons, List.sum_cons, ← Nat.add_assoc]
    by_cases hsampled : sampled entry = true
    · rw [List.filter_cons_of_pos hsampled, if_pos hsampled, ← hrest, ← List.singleton_append,
        advance_append, advance_singleton, Entry.step, if_neg hfixed]
    · rw [List.filter_cons_of_neg hsampled, if_neg hsampled, hrest, Nat.add_zero]

section

variable (hentries : evsel.entries = front ++ entry :: back)
  (hcache : perfEventMembers evsel = some cache)
  (hmember : member ∈ cache.members) (hpart : member.part = entry.part)
  (data : Bytes)

include hentries hcache hmember hpart

theorem memberOffset_at :
    entry.part.sampled evsel.sampleType = true ∧
    cache.memberOffset member data =
      advance (Entry.step data)
        (front.filter fun entry => entry.part.sampled evsel.sampleType) 0 := by
  have hmembers := evsel.members_eq hcache
  rw [hmembers] at hmember
  obtain ⟨first, found, rest, hsplit, rfl⟩ := Table.mem_members.mp hmember
  have hpart : found.part = entry.part := hpart
  have hsampled : entry.part.sampled evsel.sampleType = true := by
    have hmem : found ∈ evsel.sampledEntries := by simp [hsplit]
    rw [← hpart]
    exact (List.mem_filter.mp hmem).2
  refine ⟨hsampled, ?_⟩
  rw [Cache.memberOffset_eq evsel.ordered_sampledEntries hmembers data hsplit]
  have hother : evsel.sampledEntries =
      (front.filter fun entry => entry.part.sampled evsel.sampleType) ++
        entry :: back.filter fun entry =>
          entry.part.sampled evsel.sampleType := by
    rw [Evsel.sampledEntries, hentries, List.filter_append,
      List.filter_cons_of_pos (by exact hsampled)]
  have hnodup := evsel.ordered_sampledEntries.nodup
  have hfirst := takeWhile_of_nodup hnodup hsplit
  rw [hpart, takeWhile_of_nodup hnodup hother] at hfirst
  rw [hfirst]

theorem memberOffset_fixed (fixed : ∀ entry ∈ front, entry.sz ≠ 0) :
    entry.part.sampled evsel.sampleType = true ∧
    cache.memberOffset member data =
      (front.map fun entry => if entry.part.sampled evsel.sampleType then
        entry.pad + entry.sz
      else 0).sum := by
  obtain ⟨hsampled, hoffset⟩ := memberOffset_at hentries hcache hmember hpart data
  rw [hoffset, advance_fixed data _ fixed, Nat.zero_add]
  exact ⟨hsampled, rfl⟩

end

theorem ite_add_pos (sampled : Bool) (pos size : Nat) :
    (if sampled then pos + size else pos) =
      pos + if sampled then size else 0 := by
  cases sampled <;> rfl

def fixedParts : List Part :=
  [.identifier, .ip, .pid, .tid, .time, .addr, .id, .streamId, .cpu, .period, .read]

theorem getLsbD_posMask : ∀ part ∈ fixedParts, ∀ sampleType : BitVec 64,
    (sampleType &&& posMask).getLsbD part.bit = part.sampled sampleType := by
  have hmask : ∀ part ∈ fixedParts, posMask.getLsbD part.bit = true := by decide
  intro part hpart sampleType
  rw [BitVec.getLsbD_and, hmask part hpart, Bool.and_true]
  simp only [fixedParts, List.mem_cons, List.not_mem_nil, or_false] at hpart
  rcases hpart with rfl | rfl | rfl | rfl | rfl | rfl | rfl | rfl | rfl | rfl | rfl <;> rfl

theorem getLsbD_posType
    (htypes : evsel.attr.sampleType &&& posMask = sampleType ∨
      evsel.attr.sampleType &&& posMask = 0)
    (hsampled : part.sampled evsel.sampleType = true)
    (hpart : part ∈ fixedParts) (other : Part) (hother : other ∈ fixedParts) :
    sampleType.getLsbD other.bit = other.sampled evsel.sampleType := by
  rw [evsel.sampled_sampleType] at hsampled ⊢
  rcases htypes with rfl | hzero
  · exact getLsbD_posMask other hother _
  · have hbit := getLsbD_posMask part hpart evsel.attr.sampleType
    rw [hzero, hsampled] at hbit
    simp at hbit

theorem positions_agree (hpos : perfSamplePosInit evlist = some pos)
    (hevsel : evsel ∈ evlist) (hsampling : evsel.attr.samplePeriod ≠ 0)
    (hcache : perfEventMembers evsel = some cache)
    (hmember : member ∈ cache.members)
    (hkept : (member.part, position) ∈ pos.kept) (data : Bytes) :
    position = some (cache.memberOffset member data) := by
  obtain ⟨⟨sampleType, onlyone⟩, htype, rfl⟩ := Option.map_eq_some_iff.mp hpos
  have htypes := (posSampleType_eq htype).2 evsel hevsel hsampling
  simp only [Pos.kept, List.mem_cons, List.not_mem_nil, or_false, Prod.mk.injEq] at hkept
  have htid : Part.pid.sampled evsel.sampleType = Part.tid.sampled evsel.sampleType := rfl
  have hfound : ∀ index part sz size pad,
      evsel.entries = evsel.entries.take index ++
        ⟨part, sz, size, pad⟩ :: evsel.entries.drop (index + 1) →
      (∀ entry ∈ evsel.entries.take index, entry.sz ≠ 0) →
      member.part = part → part ∈ fixedParts →
      part.sampled evsel.sampleType = true ∧
      (∀ other ∈ fixedParts,
        sampleType.getLsbD other.bit = other.sampled evsel.sampleType) ∧
      cache.memberOffset member data = ((evsel.entries.take index).map fun entry =>
        if entry.part.sampled evsel.sampleType then entry.pad + entry.sz
        else 0).sum := by
    intro index part sz size pad hentries fixed hpart inside
    obtain ⟨hsampled, hoffset⟩ :=
      memberOffset_fixed hentries hcache hmember hpart data fixed
    exact ⟨hsampled, getLsbD_posType htypes hsampled inside, hoffset⟩
  simp only [fixedParts, List.forall_mem_cons] at hfound
  rcases hkept with ⟨hpart, rfl⟩ | ⟨hpart, rfl⟩ | ⟨hpart, rfl⟩ | ⟨hpart, rfl⟩
  · obtain ⟨hsame, hbits, hoffset⟩ := hfound 2 .pid 4 4 0 rfl
      (by simp [Evsel.entries, Entry.plain]) hpart (by decide)
    rw [htid] at hsame
    rw [hoffset]
    simp [Pos.of, hbits, hsame, ite_add_pos, Evsel.entries, Entry.plain]
  · obtain ⟨hsame, hbits, hoffset⟩ := hfound 4 .time 8 8 0 rfl
      (by simp [Evsel.entries, Entry.plain]) hpart (by decide)
    rw [hoffset]
    simp [Pos.of, hbits, hsame, htid, ite_add_pos, Evsel.entries, Entry.plain]
    cases Part.tid.sampled evsel.sampleType
    · simp
    · simp
      omega
  · obtain ⟨hsame, hbits, hoffset⟩ := hfound 6 .id 8 8 0 rfl
      (by simp [Evsel.entries, Entry.plain]) hpart (by decide)
    rw [hoffset]
    simp [Pos.of, hbits, hsame, htid, ite_add_pos, Evsel.entries, Entry.plain]
    cases Part.tid.sampled evsel.sampleType <;> simp <;> omega
  · obtain ⟨hsame, hbits, hoffset⟩ := hfound 8 .cpu 4 4 4 rfl
      (by simp [Evsel.entries, Entry.plain]) hpart (by decide)
    rw [hoffset]
    simp [Pos.of, hbits, hsame, htid, ite_add_pos, Evsel.entries, Entry.plain]
    cases Part.tid.sampled evsel.sampleType <;> simp <;> omega

end Positions

/-- In every sample the offset of each member is the one that going through the
sample gives, and the positions of the device are these offsets, exactly when
the sample has what the code does not look for only behind its other parts. -/
theorem member_offsets_iff (evsel : Evsel) (record : Record evsel) :
    ((∀ cache, perfEventMembers evsel = some cache →
        ∀ member ∈ cache.members,
          cache.memberOffset member record.data = record.offset member.part) ∧
      ∀ evlist pos, perfSamplePosInit evlist = some pos →
        evsel ∈ evlist →
        evsel.attr.samplePeriod ≠ 0 →
        ∀ cache, perfEventMembers evsel = some cache →
          ∀ member ∈ cache.members, ∀ position,
            (member.part, position) ∈ pos.kept →
            position = some (cache.memberOffset member record.data)) ↔
      record.Regular := by
  rw [← record.placed_iff_regular]
  constructor
  · exact fun agree => agree.1
  · intro placed
    refine ⟨placed, ?_⟩
    intro evlist pos hpos hevsel hsampling cache hcache member hmember position hkept
    exact positions_agree hpos hevsel hsampling hcache hmember hkept record.data

def branchEvsel : Evsel :=
  { attr :=
      { samplePeriod := 1, sampleType := 0x8800, readFormat := 0
        sampleRegsUser := 0, sampleRegsIntr := 0 }
    nrMembers := 1 }

def branchContent : Content :=
  { word := fun _ => 0, pid := 0, tid := 0, cpu := 0, res := 0
    timeEnabled := 0, timeRunning := 0
    counter := { value := 0, id := 0, lost := 0 }, siblings := []
    ips := [], raw := [], branches := [(1, 2, 3)], hwIdx := some 0
    branchCounters := [], regsUserAbi := 0, regsUser := [], stackUser := []
    dynSize := 0, regsIntrAbi := 0, regsIntr := [], aux := [] }

def branchRecord : Record branchEvsel :=
  { auxLast := false, content := branchContent, regsUser := by decide
    regsIntr := by decide, fits := by decide }

/-- The index of the hardware is not skipped. -/
theorem branch_index_not_skipped :
    ((perfEventMembers branchEvsel).bind fun cache =>
      (cache.member? .dataSrc).map fun member =>
        (cache.memberOffset member branchRecord.data,
          branchRecord.offset member.part)) = some (32, 40) := by
  decide +kernel

end PerfProf.Convert
