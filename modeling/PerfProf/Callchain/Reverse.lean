import Mathlib.Data.List.TakeDrop
import Mathlib.Algebra.Order.Ring.Int

namespace PerfProf.Callchain

/-! `__print_callchain()` and `__print_callchain_reverse()`. -/

abbrev CONTEXT_KERNEL : Nat := 2 ^ 64 - 128
abbrev CONTEXT_PYSTACK : Nat := 2 ^ 64 - 130
abbrev CONTEXT_USER : Nat := 2 ^ 64 - 512
abbrev CONTEXT_MAX : Nat := 2 ^ 64 - 4095

inductive Context where
  | kernel | user | py
  deriving DecidableEq, Repr

def context? (ip : Nat) : Option Context :=
  if ip = CONTEXT_KERNEL then some .kernel
  else if ip = CONTEXT_USER then some .user
  else if ip = CONTEXT_PYSTACK then some .py
  else none

def printCallchain : Option Context → List Nat → List (Context × Nat)
  | _, [] => []
  | current, ip :: ips =>
    match context? ip with
    | some context => printCallchain (some context) ips
    | none => (current.map (·, ip)).toList ++ printCallchain current ips

structure Bounds where
  kstart : Nat
  kend : Nat
  ustart : Nat
  uend : Nat
  pystart : Nat
  pyend : Nat

def before (i : Nat) : Nat := if i = 0 then 2 ^ 64 - 1 else i - 1

/-- The loop over the markers; `user` is `cc->user`. -/
def findBounds (user : Bool) (nr : Nat) : Nat → List Nat → Bounds → Bounds
  | _, [], bounds => bounds
  | i, ip :: ips, bounds =>
    match context? ip with
    | some .kernel =>
      let bounds := { bounds with kstart := i + 1, kend := before nr }
      if user then findBounds user nr (i + 1) ips bounds else bounds
    | some .user =>
      findBounds user nr (i + 1) ips
        { bounds with kend := before i, ustart := i + 1, uend := before nr }
    | some .py => { bounds with uend := before i, pystart := i + 1, pyend := before nr }
    | none => findBounds user nr (i + 1) ips bounds

/-- `for (; end >= start; end--)`, if the section was found. -/
def printSection (context : Context) (ips : List Nat) (first last : Nat) :
    List (Context × Nat) :=
  if first = 0 then []
  else (((ips.take (last + 1)).drop first).reverse.filter (· ≤ CONTEXT_MAX)).map (context, ·)

def printCallchainReverse (user : Bool) (ips : List Nat) :
    List (Context × Nat) :=
  let bounds := findBounds user ips.length 0 ips ⟨0, 0, 0, 0, 0, 0⟩
  printSection .py ips bounds.pystart bounds.pyend ++
    printSection .user ips bounds.ustart bounds.uend ++
    printSection .kernel ips bounds.kstart bounds.kend

/-- A callchain whose contexts come in this order; `lead` stands before the
first one. -/
structure Ordered where
  lead : List Nat
  kernel : Option (List Nat)
  user : Option (List Nat)
  py : Option (List Nat)
  frames : ∀ ip ∈ lead ++ kernel.getD [] ++ user.getD [] ++ py.getD [], ip ≤ CONTEXT_MAX

def marked (marker : Nat) (frames : Option (List Nat)) : List Nat :=
  (frames.map (marker :: ·)).getD []

def Ordered.ips (chain : Ordered) : List Nat :=
  chain.lead ++ (marked CONTEXT_KERNEL chain.kernel ++
    (marked CONTEXT_USER chain.user ++ marked CONTEXT_PYSTACK chain.py))

section Frames

variable {frames : List Nat} (hframes : ∀ ip ∈ frames, ip ≤ CONTEXT_MAX)

private theorem context?_markers :
    context? CONTEXT_KERNEL = some .kernel ∧
    context? CONTEXT_USER = some .user ∧
    context? CONTEXT_PYSTACK = some .py := by
  decide

theorem context?_frame (hframe : ip ≤ CONTEXT_MAX) : context? ip = none := by
  simp only [CONTEXT_MAX] at hframe
  simp only [context?, CONTEXT_KERNEL, CONTEXT_USER, CONTEXT_PYSTACK]
  rw [if_neg (by omega), if_neg (by omega), if_neg (by omega)]

include hframes

theorem printCallchain_frames (current : Option Context) (rest : List Nat) :
    printCallchain current (frames ++ rest) =
      (current.map fun context => frames.map (context, ·)).getD [] ++
        printCallchain current rest := by
  induction frames with
  | nil => cases current <;> rfl
  | cons ip frames ih =>
    rw [List.forall_mem_cons] at hframes
    rw [List.cons_append, printCallchain, context?_frame hframes.1, ih hframes.2]
    cases current <;> rfl

theorem findBounds_frames (user : Bool) (nr i : Nat) (rest : List Nat)
    (bounds : Bounds) :
    findBounds user nr i (frames ++ rest) bounds =
      findBounds user nr (i + frames.length) rest bounds := by
  induction frames generalizing i with
  | nil => rfl
  | cons ip frames ih =>
    rw [List.forall_mem_cons] at hframes
    rw [List.cons_append, findBounds, context?_frame hframes.1, ih hframes.2, List.length_cons,
      Nat.add_right_comm, Nat.add_assoc]

theorem findBounds_end (user : Bool) (nr i : Nat) (bounds : Bounds) :
    findBounds user nr i frames bounds = bounds := by
  have hall := findBounds_frames hframes user nr i [] bounds
  rwa [List.append_nil] at hall

theorem filter_frames : frames.filter (· ≤ CONTEXT_MAX) = frames := by
  simpa using hframes

end Frames

theorem printSection_zero (context : Context) (ips : List Nat) (last : Nat) :
    printSection context ips 0 last = [] := rfl

theorem printSection_found (context : Context) {inner : List Nat}
    (hips : ips = front ++ marker :: (inner ++ rest))
    (hfirst : first = front.length + 1)
    (hlast : last + 1 = front.length + 1 + inner.length) :
    printSection context ips first last =
      ((inner.filter (· ≤ CONTEXT_MAX)).map (context, ·)).reverse := by
  have hslice : (ips.take (last + 1)).drop first = inner := by
    rw [hips, hlast, hfirst, List.append_cons, ← List.append_assoc, List.take_append_of_le_length,
      List.take_of_length_le, List.drop_left'] <;> simp <;> omega
  rw [printSection, if_neg (by omega), hslice, List.filter_reverse, List.map_reverse]

theorem printSection_marked (context : Context)
    (hframes : ∀ ip ∈ frames.getD [], ip ≤ CONTEXT_MAX)
    (hips : ips = front ++ (marked marker frames ++ rest))
    (hfirst : first = if frames.isSome then front.length + 1 else 0)
    (hlast : frames.isSome →
      last + 1 = front.length + (marked marker frames).length) :
    printSection context ips first last =
      ((frames.getD []).map (context, ·)).reverse := by
  cases frames with
  | none => subst hfirst; rfl
  | some frames =>
    have hlast := hlast rfl
    have hfilter : frames.filter (· ≤ CONTEXT_MAX) = frames := filter_frames hframes
    rw [printSection_found context (by simpa [marked] using hips) hfirst
      (by simp [marked] at hlast; omega), hfilter]
    rfl

theorem printCallchain_marked (hmarker : context? marker = some context)
    (hframes : ∀ ip ∈ frames.getD [], ip ≤ CONTEXT_MAX)
    (current : Option Context) (rest : List Nat) :
    printCallchain current (marked marker frames ++ rest) =
      (frames.getD []).map (context, ·) ++
        printCallchain (if frames.isSome then some context else current)
          rest := by
  cases frames with
  | none => rfl
  | some frames =>
    change printCallchain current (marker :: (frames ++ rest)) = _
    rw [printCallchain, hmarker]
    exact printCallchain_frames hframes (some context) rest

namespace Ordered

variable (chain : Ordered)

theorem printed :
    printCallchain none chain.ips =
      (chain.kernel.getD []).map (.kernel, ·) ++
        (chain.user.getD []).map (.user, ·) ++
        (chain.py.getD []).map (.py, ·) := by
  have hframes := chain.frames
  simp only [List.forall_mem_append] at hframes
  obtain ⟨⟨⟨hlead, hkernel⟩, huser⟩, hpy⟩ := hframes
  rw [ips, printCallchain_frames hlead, printCallchain_marked context?_markers.1 hkernel,
    printCallchain_marked context?_markers.2.1 huser, ← List.append_nil (marked CONTEXT_PYSTACK _),
    printCallchain_marked context?_markers.2.2 hpy]
  simp [printCallchain]

theorem bounds (user : Bool) (nr : Nat) :
    findBounds user nr 0 chain.ips ⟨0, 0, 0, 0, 0, 0⟩ =
      let kernel :=
        chain.lead.length + (marked CONTEXT_KERNEL chain.kernel).length
      let stops := chain.kernel.isSome && !user
      { kstart := if chain.kernel.isSome then chain.lead.length + 1 else 0
        kend := if chain.user.isSome && !stops then before kernel
          else if chain.kernel.isSome then before nr else 0
        ustart := if chain.user.isSome && !stops then kernel + 1 else 0
        uend := if chain.py.isSome && !stops then
            before (kernel + (marked CONTEXT_USER chain.user).length)
          else if chain.user.isSome && !stops then before nr else 0
        pystart := if chain.py.isSome && !stops then
            kernel + (marked CONTEXT_USER chain.user).length + 1 else 0
        pyend := if chain.py.isSome && !stops then before nr else 0 } := by
  have hframes := chain.frames
  simp only [List.forall_mem_append] at hframes
  obtain ⟨⟨⟨hlead, hkernel⟩, huser⟩, hpy⟩ := hframes
  have hmarks := context?_markers
  rw [ips, findBounds_frames hlead]
  cases hk : chain.kernel <;> cases hu : chain.user <;> cases hp : chain.py <;> cases user <;>
    simp_all [marked, findBounds, findBounds_frames, findBounds_end, Nat.add_comm,
      Nat.add_left_comm]

theorem filter_marked {marker : Nat} {frames : Option (List Nat)}
    (hmarker : CONTEXT_MAX < marker)
    (hframes : ∀ ip ∈ frames.getD [], ip ≤ CONTEXT_MAX) :
    (marked marker frames).filter (· ≤ CONTEXT_MAX) = frames.getD [] := by
  cases frames with
  | none => rfl
  | some frames =>
    change (marker :: frames).filter _ = frames
    rw [List.filter_cons_of_neg (by simpa using hmarker)]
    exact filter_frames hframes

theorem before_add_one (hpos : 0 < i) : before i + 1 = i := by
  rw [before, if_neg (by omega)]
  omega

theorem printed_reverse (user : Bool) :
    printCallchainReverse user chain.ips =
      if chain.kernel.isSome ∧ user = false then
        ((chain.kernel.getD [] ++ chain.user.getD [] ++ chain.py.getD []).map
          (.kernel, ·)).reverse
      else
        ((chain.py.getD []).map (.py, ·)).reverse ++
          ((chain.user.getD []).map (.user, ·)).reverse ++
          ((if chain.kernel.isSome ∧ chain.user = none then
              chain.kernel.getD [] ++ chain.py.getD []
            else chain.kernel.getD []).map (.kernel, ·)).reverse := by
  have hframes := chain.frames
  simp only [List.forall_mem_append] at hframes
  obtain ⟨⟨⟨-, hkernel⟩, huser⟩, hpy⟩ := hframes
  have hmarks : CONTEXT_MAX < CONTEXT_USER ∧ CONTEXT_MAX < CONTEXT_PYSTACK := by decide
  have hmu := filter_marked hmarks.1 huser
  have hmp := filter_marked hmarks.2 hpy
  have hfilter : ∀ k, chain.kernel = some k → k.filter (· ≤ CONTEXT_MAX) = k := by
    intro k hk
    rw [hk] at hkernel
    exact filter_frames hkernel
  rw [printCallchainReverse, bounds]
  by_cases hstops : chain.kernel.isSome ∧ user = false
  · obtain ⟨hsome, rfl⟩ := hstops
    obtain ⟨k, hk⟩ := Option.isSome_iff_exists.mp hsome
    have hips : chain.ips = chain.lead ++ CONTEXT_KERNEL ::
        ((k ++ (marked CONTEXT_USER chain.user ++ marked CONTEXT_PYSTACK chain.py)) ++ []) := by
      simp [ips, hk, marked]
    have hall := printSection_found .kernel hips rfl
      (show before chain.ips.length + 1 = _ by simp [hips, before]; omega)
    simp [hk, printSection_zero, hall, hmu, hmp, hfilter k hk]
  · rw [if_neg hstops]
    have hstops : (chain.kernel.isSome && !user) = false := by simpa using hstops
    have hsome : ∀ {marker : Nat} {frames : Option (List Nat)}, frames.isSome →
        (marked marker frames).length = (frames.getD []).length + 1 := by
      rintro marker (_ | frames) ⟨⟩
      rfl
    have hips_py : chain.ips = (chain.lead ++ (marked CONTEXT_KERNEL chain.kernel ++
        marked CONTEXT_USER chain.user)) ++ (marked CONTEXT_PYSTACK chain.py ++ []) := by simp [ips]
    have hips_user : chain.ips = (chain.lead ++ marked CONTEXT_KERNEL chain.kernel) ++
        (marked CONTEXT_USER chain.user ++ marked CONTEXT_PYSTACK chain.py) := by simp [ips]
    simp only [hstops, Bool.not_false, Bool.and_true]
    congr 1
    · congr 1
      · refine printSection_marked .py hpy hips_py (by simp [Nat.add_assoc]) ?_
        intro hpy
        simp [hpy, hsome hpy, ips, before]
        omega
      · refine printSection_marked .user huser hips_user (by simp) ?_
        intro huser
        have hpos : 0 < (marked CONTEXT_USER chain.user).length := by simp [hsome huser]
        have hnone : marked CONTEXT_PYSTACK none = [] := rfl
        cases hpy : chain.py with
        | none =>
          rw [hips_user, hpy, hnone, List.append_nil, List.length_append]
          simp [huser, before_add_one (Nat.add_pos_right _ hpos)]
        | some p => simp [before_add_one (Nat.add_pos_right _ hpos)]
    · cases huser : chain.user with
      | some u =>
        refine (printSection_marked .kernel hkernel rfl rfl ?_).trans (by simp)
        intro hkernel
        simp [hsome hkernel, before]
        omega
      | none =>
        cases hk : chain.kernel with
        | none => rfl
        | some k =>
          have hips : chain.ips = chain.lead ++ CONTEXT_KERNEL ::
              ((k ++ marked CONTEXT_PYSTACK chain.py) ++ []) := by
            simp [ips, hk, huser, marked]
          have hrest := printSection_found .kernel hips rfl
            (show before chain.ips.length + 1 = _ by simp [hips, before]; omega)
          simp [hrest, hfilter k hk, hmp]

end Ordered

/-- A reversed callchain has the frames of the callchain in the other order if
and only if there is no kernel section, or nothing behind it, or the user
section is there and printed. -/
theorem reverse_printed_iff (user : Bool) (chain : Ordered) :
    printCallchainReverse user chain.ips =
      (printCallchain none chain.ips).reverse ↔
      chain.kernel = none ∨
      (chain.user.getD [] = [] ∧ chain.py.getD [] = []) ∨
      (user = true ∧ chain.user.isSome) := by
  rw [chain.printed_reverse, chain.printed]
  cases hkernel : chain.kernel with
  | none => simp
  | some k =>
    cases user with
    | false =>
      rw [← List.reverse_inj]
      cases chain.user.getD [] <;> cases chain.py.getD [] <;> simp
    | true =>
      cases huser : chain.user with
      | none => simp
      | some u => simp

def kernelAndUser : Ordered where
  lead := []
  kernel := some [1]
  user := some [2]
  py := none
  frames := by decide

theorem reverse_printed_kernelAndUser :
    printCallchainReverse true kernelAndUser.ips =
      (printCallchain none kernelAndUser.ips).reverse :=
  (reverse_printed_iff true kernelAndUser).mpr (.inr (.inr ⟨rfl, rfl⟩))

/-- Without a user section the Python frame is printed twice, and a context
without user symbols takes the user frame for one of the kernel. -/
theorem reverse_prints_other_frames :
    printCallchainReverse true [CONTEXT_KERNEL, 1, CONTEXT_PYSTACK, 2] =
      [(.py, 2), (.kernel, 2), (.kernel, 1)] ∧
    printCallchain none [CONTEXT_KERNEL, 1, CONTEXT_PYSTACK, 2] =
      [(.kernel, 1), (.py, 2)] ∧
    printCallchainReverse false [CONTEXT_KERNEL, 1, CONTEXT_USER, 2] =
      [(.kernel, 2), (.kernel, 1)] ∧
    printCallchain none [CONTEXT_KERNEL, 1, CONTEXT_USER, 2] =
      [(.kernel, 1), (.user, 2)] := by
  decide

end PerfProf.Callchain
