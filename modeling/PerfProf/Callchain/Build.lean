import PerfProf.Callchain.Reverse

namespace PerfProf.Callchain

/-! `build_callchain()`, when there are registers and a stack to unwind. -/

/-- The copy of the kernel part into `synth`, which has so much room. -/
def copyKernel : Nat → List Nat → List Nat
  | 0, _ => []
  | _, [] => []
  | room + 1, ip :: ips => if ip = CONTEXT_USER then [ip] else ip :: copyKernel room ips

/-- How many entries the loop that compares the user frames passes. -/
def matching : List Nat → List Nat → Nat
  | ip :: ips, other :: others => if ip = other then matching ips others + 1 else 0
  | _, _ => 0

/-- `dwarf_unwind_user()` finds the first frames of `dwarf` that there is room
for. -/
def buildCallchain (nr : Nat) (callchain dwarf : List Nat) : List Nat :=
  let copied := copyKernel nr callchain
  let kernel :=
    if copied.length < nr ∧ copied.getLast? ≠ some CONTEXT_USER then copied ++ [CONTEXT_USER]
    else copied
  let user := dwarf.take (nr - kernel.length)
  if nr ≤ kernel.length ∨ user = [] then callchain
  else
    let synth := kernel ++ user
    if matching user (callchain.drop kernel.length) = user.length ∧
        synth.length < callchain.length then
      synth ++ (callchain.drop synth.length).take (nr - synth.length)
    else synth

def kernelPart (callchain : List Nat) : List Nat :=
  callchain.takeWhile (· ≠ CONTEXT_USER) ++ [CONTEXT_USER]

def userPart (callchain : List Nat) : List Nat :=
  (callchain.dropWhile (· ≠ CONTEXT_USER)).tail

def merged (nr : Nat) (callchain dwarf : List Nat) : List Nat :=
  (kernelPart callchain ++ dwarf ++
    if dwarf <+: userPart callchain then (userPart callchain).drop dwarf.length else []).take nr

private theorem matching_eq_length_iff (ips others : List Nat) :
    matching ips others = ips.length ↔ ips <+: others := by
  induction ips generalizing others with
  | nil => cases others <;> simp [matching]
  | cons ip ips ih =>
    cases others with
    | nil => simp [matching]
    | cons other others =>
      by_cases same : ip = other <;> simp [matching, same, ih, List.cons_prefix_cons]

private theorem copyKernel_eq (room : Nat) (callchain : List Nat) :
    copyKernel room callchain =
      (if CONTEXT_USER ∈ callchain then
          kernelPart callchain
        else callchain).take room := by
  induction callchain generalizing room with
  | nil => cases room <;> simp [copyKernel]
  | cons ip ips ih =>
    cases room with
    | zero => simp [copyKernel]
    | succ room =>
      by_cases marker : ip = CONTEXT_USER
      · simp [copyKernel, kernelPart, marker]
      · by_cases member : CONTEXT_USER ∈ ips <;>
          simp [copyKernel, kernelPart, marker, Ne.symm marker, ih, member]

private theorem kernelPart_append (callchain : List Nat) :
    (CONTEXT_USER ∈ callchain →
      kernelPart callchain ++ userPart callchain = callchain) ∧
    (CONTEXT_USER ∉ callchain →
      kernelPart callchain = callchain ++ [CONTEXT_USER] ∧
        userPart callchain = []) := by
  induction callchain with
  | nil => simp [kernelPart, userPart]
  | cons ip ips ih =>
    by_cases marker : ip = CONTEXT_USER
    · simp [kernelPart, userPart, marker]
    · simpa [kernelPart, userPart, marker, Ne.symm marker] using ih

private theorem drop_kernelPart (callchain : List Nat) :
    callchain.drop (kernelPart callchain).length = userPart callchain := by
  obtain ⟨hmarked, hplain⟩ := kernelPart_append callchain
  by_cases marker : CONTEXT_USER ∈ callchain
  · have hdrop := @List.drop_left _ (kernelPart callchain) (userPart callchain)
    rwa [hmarked marker] at hdrop
  · rw [(hplain marker).1, (hplain marker).2]
    simp

private theorem marked_copyKernel (nr : Nat) (callchain : List Nat) :
    (if (copyKernel nr callchain).length < nr ∧
        (copyKernel nr callchain).getLast? ≠ some CONTEXT_USER then
      copyKernel nr callchain ++ [CONTEXT_USER] else copyKernel nr callchain) =
      (kernelPart callchain).take nr := by
  rw [copyKernel_eq]
  by_cases marker : CONTEXT_USER ∈ callchain
  · rw [if_pos marker, if_neg]
    rintro ⟨short, last⟩
    rw [List.take_of_length_le (by simp at short; omega)] at last
    simp [kernelPart] at last
  · rw [if_neg marker, ((kernelPart_append callchain).2 marker).1]
    rcases Nat.lt_or_ge callchain.length nr with short | full
    · have hlast : callchain.getLast? ≠ some CONTEXT_USER :=
        fun last => marker (List.mem_of_getLast? last)
      rw [List.take_of_length_le short.le, if_pos ⟨short, hlast⟩, List.take_of_length_le (by simpa)]
    · rw [if_neg (by simp; omega), List.take_append_of_le_length full]

variable {nr : Nat} {callchain dwarf : List Nat}

private theorem buildCallchain_of_full
    (full : ¬ (kernelPart callchain).length < nr ∨ dwarf = []) :
    buildCallchain nr callchain dwarf = callchain := by
  simp only [buildCallchain, marked_copyKernel]
  rw [if_pos]
  rcases full with full | rfl
  · exact .inl (by rw [List.length_take]; omega)
  · exact .inr List.take_nil

private theorem buildCallchain_of_room
    (room : (kernelPart callchain).length < nr) (found : dwarf ≠ []) :
    buildCallchain nr callchain dwarf = merged nr callchain dwarf := by
  have huser : dwarf.take (nr - (kernelPart callchain).length) ≠ [] := by
    simp [found]
    omega
  have hdrop : ∀ passed, callchain.drop ((kernelPart callchain).length + passed) =
      (userPart callchain).drop passed := by
    intro passed
    rw [← drop_kernelPart, List.drop_drop]
  have hlength : (userPart callchain).length =
    callchain.length - (kernelPart callchain).length := by
    rw [← drop_kernelPart, List.length_drop]
  simp only [buildCallchain, marked_copyKernel, List.take_of_length_le room.le, merged,
    matching_eq_length_iff, drop_kernelPart, List.length_append, hdrop, List.take_append, huser,
    or_false, if_neg (Nat.not_le.mpr room)]
  rcases Nat.lt_or_ge (nr - (kernelPart callchain).length) dwarf.length with long | short
  · rw [List.length_take, Nat.min_eq_left long.le]
    simp [Nat.add_sub_cancel' room.le]
    exact .inl (by omega)
  · rw [List.take_of_length_le short]
    by_cases begins : dwarf <+: userPart callchain
    · rcases Nat.lt_or_ge dwarf.length (userPart callchain).length with more | same
      · rw [if_pos ⟨begins, by omega⟩, if_pos begins]
      · rw [if_neg (by omega), if_pos begins, List.drop_eq_nil_of_le same]
        simp
    · simp [begins]

private theorem merged_of_begins (begins : dwarf <+: userPart callchain)
    (marker : CONTEXT_USER ∈ callchain) :
    merged nr callchain dwarf = callchain.take nr := by
  obtain ⟨rest, hrest⟩ := begins
  rw [merged, if_pos ⟨rest, hrest⟩, ← hrest, List.drop_left, List.append_assoc, hrest,
    (kernelPart_append callchain).1 marker]

/-- Where something is unwound and there is room for it behind the kernel part,
the two callchains are merged within `nr` entries, and frames that the frame
pointers confirm give back the callchain; otherwise it is returned as it is. -/
theorem callchain_merged_or_kept (nr : Nat) (callchain dwarf : List Nat) :
    if (kernelPart callchain).length < nr ∧ dwarf ≠ [] then
      buildCallchain nr callchain dwarf = merged nr callchain dwarf ∧
      (buildCallchain nr callchain dwarf).length ≤ nr ∧
      (dwarf <+: userPart callchain →
        buildCallchain nr callchain dwarf = callchain.take nr)
    else
      buildCallchain nr callchain dwarf = callchain := by
  split
  · rename_i room
    rw [buildCallchain_of_room room.1 room.2]
    refine ⟨rfl, List.length_take_le _ _, fun begins => ?_⟩
    refine merged_of_begins begins (by_contra fun plain => room.2 ?_)
    rw [((kernelPart_append callchain).2 plain).2] at begins
    exact List.prefix_nil.mp begins
  · exact buildCallchain_of_full (by tauto)

/-- A callchain of four entries where two are allowed. -/
theorem long_callchain_returned :
    buildCallchain 2 [1, 2, CONTEXT_USER, 3] [3] = [1, 2, CONTEXT_USER, 3] ∧
      merged 2 [1, 2, CONTEXT_USER, 3] [3] = [1, 2] := by
  decide

end PerfProf.Callchain
