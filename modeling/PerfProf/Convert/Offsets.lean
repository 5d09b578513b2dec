import PerfProf.Convert.Kernel
import PerfProf.Convert.Places

namespace PerfProf.Convert

open Data

namespace Evsel

variable (evsel : Evsel)

theorem readSize_eq :
    evsel.readSize =
      (if evsel.attr.timeEnabled then 8 else 0) +
        (if evsel.attr.timeRunning then 8 else 0) +
        (if evsel.attr.group then 8 else 0) +
        (8 + (if evsel.attr.formatId then 8 else 0) +
          (if evsel.attr.lost then 8 else 0)) *
          (if evsel.attr.group then evsel.nrMembers else 1) := by
  unfold readSize
  cases evsel.attr.timeEnabled <;> cases evsel.attr.timeRunning <;>
    cases evsel.attr.group <;> cases evsel.attr.formatId <;>
    cases evsel.attr.lost <;> simp

theorem readSize_ne_zero : evsel.readSize ≠ 0 := by
  rw [readSize_eq]
  cases evsel.attr.group <;> simp

def sampledEntries : List Entry :=
  evsel.entries.filter fun entry => entry.part.sampled evsel.sampleType

theorem sampled_sampleType (part : Part) :
    part.sampled evsel.sampleType = part.sampled evsel.attr.sampleType := by
  have hmask : ∀ part : Part, (0x1ffffff : BitVec 64).getLsbD part.bit = true := by
    intro part
    cases part <;> decide
  have hbit : ∀ part : Part, evsel.sampleType.getLsbD part.bit =
      evsel.attr.sampleType.getLsbD part.bit := by
    intro part
    rw [sampleType, BitVec.getLsbD_and, hmask, Bool.and_true]
  cases part <;> simp only [Part.sampled, hbit]

theorem map_part_entries :
    evsel.entries.map Entry.part = kernelOrder false := rfl

theorem filter_readers :
    (evsel.entries.filter fun entry => decide (entry.sz = 0)).map Entry.part =
      readers := by
  simp [entries, Entry.plain, readSize_ne_zero, readers]

theorem ordered_sampledEntries : Ordered evsel.sampledEntries where
  nodup := by
    have hall : (evsel.entries.map Entry.part).Nodup := by
      rw [map_part_entries]
      decide
    exact hall.sublist (List.filter_sublist.map _)
  readers := by
    rw [← evsel.filter_readers, sampledEntries]
    exact (List.filter_sublist.filter _).map _
  pad := by
    have hall : ∀ entry ∈ evsel.entries, entry.sz = 0 → entry.pad = 0 := by
      simp [entries, Entry.plain]
    exact fun entry hentry => hall entry (List.mem_of_mem_filter hentry)

theorem members_eq (hcache : perfEventMembers evsel = some cache) :
    cache.members = (Table.of evsel.sampledEntries).members := by
  unfold perfEventMembers at hcache
  split at hcache
  · cases hcache
  · cases hcache
    rw [Table.foldl_addMember]
    rfl

end Evsel

@[simp] theorem length_u64 (value : BitVec 64) : (u64 value).length = 8 :=
  length_encode 8 _

@[simp] theorem length_flatMap_u64 (words : List (BitVec 64)) :
    (words.flatMap u64).length = 8 * words.length := by
  induction words with
  | nil => rfl
  | cons word rest ih =>
    rw [List.flatMap_cons, List.length_append, ih, length_u64, List.length_cons]
    omega

namespace Record

variable {evsel : Evsel} (record : Record evsel)

def taken : Part → Nat
  | .read => evsel.readSize
  | .branchStack => 8 + 24 * record.content.branches.length
  | part => record.width part

theorem width_read : record.width .read = Evsel.readSize
        { evsel with nrMembers := record.content.siblings.length + 1 } := by
  have hcounters : ∀ counters : List Counter,
      (counters.flatMap (Content.counterWords evsel.attr [])).length =
        (1 + (if evsel.attr.formatId then 1 else 0) +
          (if evsel.attr.lost then 1 else 0)) * counters.length := by
    intro counters
    induction counters with
    | nil => rfl
    | cons counter rest ih =>
      rw [List.flatMap_cons, List.length_append, ih,
        List.length_cons, Nat.mul_succ, Content.counterWords]
      cases evsel.attr.formatId <;> cases evsel.attr.lost <;> simp <;> omega
  rw [Evsel.readSize_eq, width, Content.bytes, Content.readBytes]
  split
  case isTrue hgroup =>
      rw [List.length_append, length_encode, length_flatMap_u64,
        List.length_append, hcounters, Content.timeWords]
      cases evsel.attr.timeEnabled <;> cases evsel.attr.timeRunning <;>
        cases evsel.attr.formatId <;> cases evsel.attr.lost <;>
        simp <;> omega
  case isFalse hgroup =>
      rw [length_flatMap_u64, Content.counterWords, Content.timeWords]
      cases evsel.attr.timeEnabled <;> cases evsel.attr.timeRunning <;>
        cases evsel.attr.formatId <;> cases evsel.attr.lost <;>
        simp

theorem width_branchStack : record.width .branchStack =
      8 + 24 * record.content.branches.length + record.content.branchExtra := by
  have hbranches : ∀ branches : List (BitVec 64 × BitVec 64 × BitVec 64),
      (branches.flatMap fun branch =>
        u64 branch.1 ++ (u64 branch.2.1 ++ u64 branch.2.2)).length =
        24 * branches.length := by
    intro branches
    induction branches with
    | nil => rfl
    | cons branch rest ih =>
      rw [List.flatMap_cons, List.length_append, ih, List.length_cons]
      simp
      omega
  rw [width, Content.bytes, Content.branchBytes, Content.branchExtra]
  simp only [List.length_append, length_encode, hbranches, length_flatMap_u64]
  cases record.content.hwIdx <;> simp <;> omega

theorem total_width (parts : List Part) : total record.width parts =
      (parts.flatMap (record.content.bytes evsel.attr)).length := by
  induction parts with
  | nil => rfl
  | cons part rest ih =>
    rw [List.flatMap_cons, List.length_append, ← ih]
    simp [total, width]

section Read

variable {record} {front back : List Part} {part : Part}

section

variable (hparts : record.parts = front ++ part :: back)

include hparts

theorem width_lt : record.width part < 65536 := by
  have hfits : total record.width record.parts < 65536 := record.fits
  rw [hparts, ← List.singleton_append, total_append, total_append, total_singleton] at hfits
  omega

theorem field_head
    (hbytes : record.content.bytes evsel.attr part = encode size value ++ rest)
    (bound : value < 256 ^ size) :
    field record.data (total record.width front) size = value := by
  rw [total_width, data, hparts, List.flatMap_append, List.flatMap_cons, hbytes, List.append_assoc]
  exact field_encode bound _ _

theorem field_length (hsize : 4 ≤ size)
    (hbytes : record.content.bytes evsel.attr part = encode size value ++ rest)
    (hvalue : value ≤ record.width part) :
    field record.data (total record.width front) size = value := by
  apply field_head hparts hbytes
  have hlt := width_lt hparts
  calc value < 256 ^ 4 := by omega
    _ ≤ 256 ^ size := Nat.pow_le_pow_right (by decide) hsize

theorem taken_regs (abi : BitVec 64) (regs : List (BitVec 64))
    (hbytes : record.content.bytes evsel.attr part = Content.regsBytes abi regs)
    (hsize : size = 8 + regs.length * 8) :
    (if field record.data (total record.width front) 8 ≠ 0 then size else 8) =
      record.width part := by
  have habi : field record.data (total record.width front) 8 = abi.toNat :=
    field_head hparts hbytes (abi.isLt.trans_le (by decide))
  have hzero : abi.toNat = 0 ↔ abi = 0 := by
    rw [← BitVec.toNat_inj]
    rfl
  rw [habi, width, hbytes, Content.regsBytes]
  by_cases hnone : abi = 0
  · simp [hnone]
  · have hne : abi.toNat ≠ 0 := fun h => hnone (hzero.mp h)
    rw [if_pos hne, if_neg hnone, List.length_append, length_u64, length_flatMap_u64]
    omega

end

theorem taken_fixed (record : Record evsel) : ∀ entry ∈ evsel.entries,
    entry.sz ≠ 0 → entry.pad + entry.sz = record.taken entry.part := by
  simp [Evsel.entries, Entry.plain, taken, width, Content.bytes]

theorem variable_entries (evsel : Evsel) :
    ∀ entry ∈ evsel.entries, entry.sz = 0 →
      entry.part ∈ readers ∧
        (entry.part = .regsUser →
          entry.size = 8 + hweight64 evsel.attr.sampleRegsUser * 8) ∧
        (entry.part = .regsIntr →
          entry.size = 8 + hweight64 evsel.attr.sampleRegsIntr * 8) := by
  simp [Evsel.entries, Entry.plain, evsel.readSize_ne_zero, readers]

theorem taken_variable (hparts : record.parts = front ++ part :: back)
    (hreader : part ∈ readers)
    (hregsUser : part = .regsUser →
      size = 8 + hweight64 evsel.attr.sampleRegsUser * 8)
    (hregsIntr : part = .regsIntr →
      size = 8 + hweight64 evsel.attr.sampleRegsIntr * 8) :
    part.taken size record.data (total record.width front) =
      record.taken part := by
  cases part with
  | callchain =>
    have hlength := field_length hparts (show 4 ≤ 8 by decide) rfl
      (by simp [width, Content.bytes]; omega)
    rw [Part.taken, hlength]
    simp [taken, width, Content.bytes, Nat.mul_comm]
  | raw =>
    have hlength := field_length hparts (show 4 ≤ 4 by decide) rfl (by simp [width, Content.bytes])
    rw [Part.taken, hlength]
    simp [taken, width, Content.bytes]
  | branchStack =>
    have hlength := field_length hparts (show 4 ≤ 8 by decide) rfl
      (by rw [width_branchStack]; omega)
    rw [Part.taken, hlength, taken, Nat.mul_comm]
  | regsUser =>
    rw [Part.taken, taken_regs hparts record.content.regsUserAbi
      record.content.regsUser rfl (by rw [hregsUser rfl, record.regsUser])]
    rfl
  | regsIntr =>
    rw [Part.taken, taken_regs hparts record.content.regsIntrAbi
      record.content.regsIntr rfl (by rw [hregsIntr rfl, record.regsIntr])]
    rfl
  | stackUser =>
    have hwidth : record.width .stackUser = 8 + if record.content.stackUser.length ≠ 0 then
          record.content.stackUser.length + 8 else 0 := by
      simp only [width, Content.bytes, Content.stackBytes, ne_eq, List.length_eq_zero_iff]
      split <;> simp
    have hlength := field_length hparts (show 4 ≤ 8 by decide) rfl (by rw [hwidth]; split <;> omega)
    change _ = record.width .stackUser
    rw [Part.taken, hlength, hwidth]
  | aux =>
    have hlength := field_length hparts (show 4 ≤ 8 by decide) rfl (by simp [width, Content.bytes])
    rw [Part.taken, hlength]
    simp [taken, width, Content.bytes]
  | _ => simp [readers] at hreader

theorem step_eq (hentry : entry ∈ evsel.entries)
    (hparts : record.parts = front ++ entry.part :: back) :
    entry.step record.data (total record.width front) =
      record.taken entry.part := by
  unfold Entry.step
  split
  case isTrue hzero =>
      obtain ⟨hreader, huser, hintr⟩ := variable_entries evsel entry hentry hzero
      exact taken_variable hparts hreader huser hintr
  case isFalse hfixed => exact record.taken_fixed entry hentry hfixed

end Read

def AuxPlaced (record : Record evsel) : Prop :=
  record.auxLast = true → Part.aux.sampled evsel.attr.sampleType = true →
    ∀ part ∈ [Part.cgroup, .dataPageSize, .codePageSize], part.sampled evsel.attr.sampleType = false

theorem map_part_sampledEntries (evsel : Evsel) :
    evsel.sampledEntries.map Entry.part =
      (kernelOrder false).filter (Part.sampled evsel.attr.sampleType) := by
  rw [← evsel.map_part_entries, List.filter_map, Evsel.sampledEntries]
  refine congrArg (List.map Entry.part) (List.filter_congr ?_)
  intro entry _
  exact evsel.sampled_sampleType entry.part

theorem parts_eq (placed : record.AuxPlaced) :
    record.parts = evsel.sampledEntries.map Entry.part := by
  rw [map_part_sampledEntries, parts, kernelOrder, kernelOrder,
    List.filter_append, List.filter_append]
  refine congrArg _ ?_
  cases hlast : record.auxLast with
  | false => rfl
  | true =>
    by_cases haux : Part.aux.sampled evsel.attr.sampleType = true
    · have hnone := placed hlast haux
      simp only [List.mem_cons, List.not_mem_nil, or_false, forall_eq_or_imp, forall_eq] at hnone
      simp [List.filter_cons, hnone]
    · simp [List.filter_cons, haux]

theorem nodup_parts : record.parts.Nodup := by
  have horder : (kernelOrder record.auxLast).Nodup := by
    cases record.auxLast <;> decide
  exact horder.filter _

theorem offset_eq (hparts : record.parts = front ++ part :: back) :
    record.offset part = total record.width front := by
  have hnodup : (record.parts.map id).Nodup := by
    rw [List.map_id]
    exact record.nodup_parts
  exact congrArg (total record.width) (takeWhile_of_nodup hnodup hparts)

def Placed (record : Record evsel) : Prop :=
  ∀ cache, perfEventMembers evsel = some cache → ∀ member ∈ cache.members,
    cache.memberOffset member record.data = record.offset member.part

theorem placed_iff (record : Record evsel) :
    record.Placed ↔
      ∀ front entry back, evsel.sampledEntries = front ++ entry :: back →
        advance (Entry.step record.data) front 0 =
          record.offset entry.part := by
  constructor
  · intro placed front entry back hsplit
    have hsampled : evsel.sampleType ≠ 0 := by
      intro hzero
      have hmem : entry ∈ evsel.sampledEntries := by simp [hsplit]
      have hentry := (List.mem_filter.mp hmem).2
      rw [hzero] at hentry
      cases hpart : entry.part <;> rw [hpart] at hentry <;> cases hentry
    obtain ⟨cache, hcache⟩ : ∃ cache, perfEventMembers evsel = some cache :=
      ⟨_, if_neg hsampled⟩
    have hmembers := evsel.members_eq hcache
    rw [← Cache.memberOffset_eq evsel.ordered_sampledEntries hmembers record.data hsplit]
    refine placed _ hcache _ ?_
    rw [hmembers]
    exact Table.mem_members.mpr ⟨front, entry, back, hsplit, rfl⟩
  · intro places cache hcache member hmember
    have hmembers := evsel.members_eq hcache
    rw [hmembers] at hmember
    obtain ⟨front, entry, back, hsplit, rfl⟩ := Table.mem_members.mp hmember
    rw [Cache.memberOffset_eq evsel.ordered_sampledEntries hmembers record.data hsplit]
    exact places front entry back hsplit

theorem total_map_part (record : Record evsel) (front : List Entry) :
    total (fun entry : Entry => record.width entry.part) front =
      total record.width (front.map Entry.part) := by
  simp [total, Function.comp_def]

/-- Where the AUX data is where the code has it, the offsets are right exactly
when no member but the last is taken to have another width. -/
theorem placed_iff_taken (placed : record.AuxPlaced) : record.Placed ↔
      ∀ front part next back, record.parts = front ++ part :: next :: back →
        record.taken part = record.width part := by
  have hparts := record.parts_eq placed
  have hsplit : ∀ front entry back, evsel.sampledEntries = front ++ entry :: back →
      record.parts = front.map Entry.part ++ entry.part :: back.map Entry.part := by
    intro front entry back h
    simp [hparts, h]
  have known : ∀ front entry back, evsel.sampledEntries = front ++ entry :: back →
      entry.step record.data (total (fun entry : Entry => record.width entry.part) front) =
        record.taken entry.part := by
    intro front entry back h
    have hmem : entry ∈ evsel.sampledEntries := by simp [h]
    rw [total_map_part]
    exact step_eq (List.mem_of_mem_filter hmem) (hsplit front entry back h)
  rw [record.placed_iff]
  refine Iff.trans ?_ ((advance_eq_iff known).trans ?_)
  · refine forall_congr' fun front => forall_congr' fun entry =>
      forall_congr' fun back => forall_congr' fun h => ?_
    rw [record.offset_eq (hsplit front entry back h), total_map_part]
  · constructor
    · intro widths front part next back h
      rw [hparts] at h
      obtain ⟨first, behind, hentries, rfl, hbehind⟩ :=
        List.map_eq_append_iff.mp h
      obtain ⟨entry, later, rfl, rfl, hlater⟩ :=
        List.map_eq_cons_iff.mp hbehind
      obtain ⟨after, rest, rfl, rfl, -⟩ := List.map_eq_cons_iff.mp hlater
      exact widths first entry after rest hentries
    · intro widths front entry next back h
      exact widths _ _ _ _ (hsplit front entry (next :: back) h)

def lateParts : List Part := [.cgroup, .dataPageSize, .codePageSize]

theorem sampledEntries_aux
    (haux : Part.aux.sampled evsel.attr.sampleType = true) :
    ∃ front, evsel.sampledEntries =
      front ++ Entry.plain .aux 0 ::
        (lateParts.filter (Part.sampled evsel.attr.sampleType)).map fun part =>
          Entry.plain part 8 := by
  have hentries : evsel.entries = evsel.entries.take 22 ++
      Entry.plain .aux 0 :: lateParts.map fun part => Entry.plain part 8 := rfl
  have hsampled : Part.sampled evsel.sampleType = Part.sampled evsel.attr.sampleType :=
    funext evsel.sampled_sampleType
  refine ⟨(evsel.entries.take 22).filter fun entry => entry.part.sampled evsel.sampleType, ?_⟩
  rw [Evsel.sampledEntries, hentries, List.filter_append,
    List.filter_cons_of_pos (by rw [hsampled]; exact haux), List.filter_map,
    hsampled]
  rfl

theorem parts_auxLast (hlast : record.auxLast = true)
    (haux : Part.aux.sampled evsel.attr.sampleType = true) :
    ∃ front, record.parts = front ++
      (lateParts.filter (Part.sampled evsel.attr.sampleType) ++ [.aux]) := by
  have horder : kernelOrder true = (kernelOrder true).take 22 ++ (lateParts ++ [.aux]) := rfl
  refine ⟨((kernelOrder true).take 22).filter (Part.sampled evsel.attr.sampleType), ?_⟩
  rw [parts, hlast, horder, List.filter_append, List.filter_append, List.filter_cons_of_pos haux]
  rfl

theorem auxPlaced_of_placed (placed : record.Placed) : record.AuxPlaced := by
  intro hlast haux part hpart
  by_contra hsampled
  rw [Bool.not_eq_false] at hsampled
  obtain ⟨middle, back, hlate⟩ := List.append_of_mem (List.mem_filter.mpr ⟨hpart, hsampled⟩)
  obtain ⟨first, hentries⟩ := sampledEntries_aux haux
  obtain ⟨front, hparts⟩ := record.parts_auxLast hlast haux
  have hlate : lateParts.filter (Part.sampled evsel.attr.sampleType) =
      middle ++ part :: back := hlate
  rw [hlate] at hentries hparts
  rw [List.map_append, List.map_cons] at hentries
  have places := record.placed_iff.mp placed
  have haux := places first _ _ hentries
  have hlater := places (first ++ Entry.plain .aux 0 ::
    middle.map fun part => Entry.plain part 8) (Entry.plain part 8)
    (back.map fun part => Entry.plain part 8) (by simp [hentries])
  have hstep : 8 ≤ (Entry.plain .aux 0).step record.data
      (advance (Entry.step record.data) first 0) := by
    simp [Entry.step, Entry.plain, Part.taken]
  rw [advance_append, ← List.singleton_append, advance_append, advance_singleton, haux] at hlater
  have hle : _ ≤ advance (Entry.step record.data) (middle.map fun part => Entry.plain part 8)
      (record.offset .aux + (Entry.plain .aux 0).step record.data
        (record.offset .aux)) := le_advance _ _
  rw [haux] at hstep
  have hkernelPart := record.offset_eq
    (show record.parts = (front ++ middle) ++ part :: (back ++ [.aux]) by simp [hparts])
  have hkernelAux := record.offset_eq
    (show record.parts = (front ++ (middle ++ part :: back)) ++ .aux :: [] by simp [hparts])
  rw [← List.append_assoc, total_append, ← hkernelPart] at hkernelAux
  have hpartPlace : (Entry.plain part 8).part = part := rfl
  have hauxPlace : (Entry.plain .aux 0).part = Part.aux := rfl
  rw [hpartPlace] at hlater
  rw [hauxPlace] at hlater hstep
  omega

end Record

end PerfProf.Convert
