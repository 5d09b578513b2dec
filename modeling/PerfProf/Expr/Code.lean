import PerfProf.Expr.Machine

namespace PerfProf.Expr

open PerfProf.Data

/-! The code the compiler means to emit, as lists of whole instructions. -/

inductive Ins where
  | plain (op : Op)
  | wide (op : Op) (operand : Word)
  deriving DecidableEq, Repr

namespace Ins

def op : Ins → Op
  | Ins.plain op => op
  | Ins.wide op _ => op

def words : Ins → List Word
  | Ins.plain op => [op.word]
  | Ins.wide op operand => [op.word, operand]

def valid : Ins → Bool
  | Ins.plain op => !hasOperand op.word
  | Ins.wide op _ => hasOperand op.word

end Ins

def Op.isOperator (op : Op) : Bool :=
  op.binary.isSome || op == .wildcard || op == .streq || op == .strne

def Ins.flow : Ins → Nat → Option Nat
  | Ins.plain op, depth =>
    if op = .psh then some (depth + 1)
    else if op.isLibrary || op == .exit then some depth
    else if op.isOperator && depth != 0 then some (depth - 1)
    else none
  | Ins.wide op operand, depth =>
    match op with
    | .imm | .li | .jmp | .bz | .bnz => some depth
    | .si => if depth = 0 then none else some (depth - 1)
    | .adj =>
      if operand.toNat ≤ depth then some (depth - operand.toNat) else none
    | _ => none

def wordsOf (code : List Ins) : List Word := code.flatMap Ins.words

def size (code : List Ins) : Nat := (wordsOf code).length

def flow : List Ins → Nat → Option Nat
  | [], depth => some depth
  | ins :: rest, depth => (ins.flow depth).bind (flow rest)

@[simp] theorem wordsOf_nil : wordsOf [] = [] := rfl

@[simp] theorem wordsOf_cons (ins : Ins) (code : List Ins) :
    wordsOf (ins :: code) = ins.words ++ wordsOf code := rfl

@[simp] theorem wordsOf_append (first second : List Ins) :
    wordsOf (first ++ second) = wordsOf first ++ wordsOf second := by
  simp [wordsOf]

@[simp] theorem size_nil : size [] = 0 := rfl

@[simp] theorem size_plain (op : Op) (code : List Ins) :
    size (Ins.plain op :: code) = 1 + size code := by
  simp [size, Ins.words, Nat.add_comm]

@[simp] theorem size_wide (op : Op) (operand : Word) (code : List Ins) :
    size (Ins.wide op operand :: code) = 2 + size code := by
  simp only [size, wordsOf_cons, Ins.words, List.length_append, List.length_cons, List.length_nil]

@[simp] theorem size_append (first second : List Ins) :
    size (first ++ second) = size first + size second := by
  simp [size]

@[simp] theorem flow_nil (depth : Nat) : flow [] depth = some depth := rfl

@[simp] theorem flow_cons (ins : Ins) (code : List Ins) (depth : Nat) :
    flow (ins :: code) depth = (ins.flow depth).bind (flow code) := rfl

theorem flow_append (first second : List Ins) (depth : Nat) :
    flow (first ++ second) depth = (flow first depth).bind (flow second) := by
  induction first generalizing depth with
  | nil => rfl
  | cons ins rest ih =>
    simp only [List.cons_append, flow_cons]
    cases ins.flow depth with
    | none => rfl
    | some next => exact ih next

theorem aligned_ins {ins : Ins} (hvalid : ins.valid = true) (rest : List Word) :
    aligned hasOperand (ins.words ++ rest) = aligned hasOperand rest := by
  cases ins with
  | plain op =>
    have narrow : hasOperand op.word = false := by simpa [Ins.valid] using hvalid
    exact aligned_narrow hasOperand narrow rest
  | wide op operand => exact aligned_wide hasOperand hvalid operand rest

theorem valid_snoc {last : Ins} (hvalid : ∀ ins ∈ code, ins.valid = true)
    (hlast : last.valid = true) : ∀ ins ∈ code ++ [last], ins.valid = true := by
  intro ins member
  rcases List.mem_append.mp member with member | member
  · exact hvalid ins member
  · rw [List.mem_singleton.mp member]
    exact hlast

theorem aligned_wordsOf (hvalid : ∀ ins ∈ code, ins.valid = true) :
    aligned hasOperand (wordsOf code) = true := by
  induction code with
  | nil => rfl
  | cons ins rest ih =>
    rw [wordsOf_cons, aligned_ins (hvalid ins List.mem_cons_self)]
    exact ih fun other member => hvalid other (List.mem_cons_of_mem ins member)

def Shallow (code : List Ins) : Prop :=
  ∀ first last depth deep, code = first ++ last →
    flow first depth = some deep → 2 * deep ≤ 2 * depth + size first

namespace Shallow

theorem nil : Shallow [] := by
  intro first last depth deep split hflow
  obtain ⟨rfl, rfl⟩ := List.append_eq_nil_iff.mp split.symm
  cases hflow
  exact Nat.le_refl _

theorem single (hpush : ins ≠ Ins.plain .psh) : Shallow [ins] := by
  intro first last depth deep split hflow
  cases first with
  | nil =>
    cases hflow
    exact Nat.le_add_right _ _
  | cons head tail =>
    simp only [List.cons_append, List.cons.injEq] at split
    obtain ⟨rfl, hnil⟩ := split
    obtain ⟨rfl, -⟩ := List.append_eq_nil_iff.mp hnil.symm
    obtain ⟨next, hnext, hsame⟩ := Option.bind_eq_some_iff.mp hflow
    cases hsame
    have hle : deep ≤ depth := by
      cases ins with
      | plain op =>
        have hop : op ≠ .psh := fun same => hpush (same ▸ rfl)
        simp only [Ins.flow, if_neg hop] at hnext
        split at hnext
        · cases hnext
          exact Nat.le_refl _
        · split at hnext
          · cases hnext
            exact Nat.sub_le _ _
          · cases hnext
      | wide op operand =>
        simp only [Ins.flow] at hnext
        split at hnext
        all_goals first
          | (cases hnext; exact Nat.le_refl _)
          | (split at hnext <;> cases hnext; exact Nat.sub_le _ _)
          | cases hnext
    omega

theorem append (left : Shallow first) (right : Shallow second) :
    Shallow (first ++ second) := by
  intro front last depth deep split hflow
  rcases List.append_eq_append_iff.mp split with
    ⟨more, rfl, hsecond⟩ | ⟨more, hfirst, -⟩
  · rw [flow_append] at hflow
    obtain ⟨middle, hmiddle, hrest⟩ := Option.bind_eq_some_iff.mp hflow
    have hleft := left first [] depth middle (by simp) hmiddle
    have hright := right more last middle deep hsecond hrest
    rw [size_append]
    omega
  · exact left front more depth deep hfirst hflow

theorem push (left : Shallow first)
    (neutral : ∀ depth, flow first depth = some depth) (filled : first ≠ [])
    (right : Shallow second) : Shallow (first ++ Ins.plain .psh :: second) := by
  have hsize : 1 ≤ size first := by
    cases first with
    | nil => exact absurd rfl filled
    | cons ins rest =>
      cases ins
      · rw [size_plain]
        omega
      · rw [size_wide]
        omega
  intro front last depth deep split hflow
  rcases List.append_eq_append_iff.mp split with
    ⟨more, rfl, hsecond⟩ | ⟨more, hfirst, -⟩
  · rw [flow_append, neutral, Option.bind_some] at hflow
    cases more with
    | nil =>
      cases hflow
      simp
    | cons ins more =>
      simp only [List.cons_append, List.cons.injEq] at hsecond
      obtain ⟨rfl, hsecond⟩ := hsecond
      have hright := right more last (depth + 1) deep hsecond hflow
      simp only [size_append, size_plain]
      omega
  · exact left front more depth deep hfirst hflow

theorem cons (hpush : ins ≠ Ins.plain .psh) (rest : Shallow code) :
    Shallow (ins :: code) :=
  (single hpush).append rest

theorem dropLoad (shallow : Shallow (code ++ [Ins.wide .li type])) :
    Shallow code := by
  intro first last depth deep split hflow
  exact shallow first (last ++ [Ins.wide .li type]) depth deep (by simp [split]) hflow

end Shallow

def endsInField (field : Word → Bool) (code : List Ins) : Bool :=
  match code.getLast? with
  | some (Ins.wide .imm value) => field value
  | _ => false

def startsWithLoad (code : List Ins) : Bool :=
  match code.head? with
  | some (Ins.wide .li _) => true
  | _ => false

/-- Every jump of the code lands on an instruction of it or right behind it,
with the stack as deep as the jump left it. -/
def JumpsLand (field : Word → Bool) (le : Word) (start : Nat) (loads : Bool)
    (code : List Ins) : Prop :=
  ∀ first op target last, code = first ++ Ins.wide op target :: last →
    op.isJump = true → ∃ middle rest, last = middle ++ rest ∧
      target = address le (start + size first + 2 + size middle) ∧
      (∀ depth, flow middle depth = some depth) ∧
      (endsInField field middle = true → startsWithLoad rest = false ∧ (rest = [] → loads = false))

/-- Code that is entered with at least `before` words on the stack and left with
`after`. -/
structure Piece (field : Word → Bool) (le : Word) (start before after : Nat)
    (code : List Ins) : Prop where
  valid : ∀ ins ∈ code, ins.valid = true
  flows : ∀ depth, flow code (depth + before) = some (depth + after)
  jumps : JumpsLand field le start false code

section Pieces

variable {field : Word → Bool} {le : Word}

theorem startsWithLoad_append (second : List Ins) (filled : first ≠ []) :
    startsWithLoad (first ++ second) = startsWithLoad first := by
  cases first with
  | nil => exact absurd rfl filled
  | cons ins rest => rfl

theorem endsInField_append (first : List Ins) (filled : second ≠ []) :
    endsInField field (first ++ second) = endsInField field second := by
  unfold endsInField
  rw [List.getLast?_append_of_ne_nil first filled]

variable {start : Nat} {first second : List Ins} {op : Op} {target : Word}

variable {before after between : Nat} {middle rest : List Ins}

theorem JumpsLand.append
    (left : JumpsLand field le start (startsWithLoad second) first)
    (right : JumpsLand field le (start + size first) loads second)
    (filled : second ≠ []) :
    JumpsLand field le start loads (first ++ second) := by
  intro front op target last split hjump
  rcases List.append_eq_append_iff.mp split with
    ⟨skipped, rfl, hsecond⟩ | ⟨inner, hfirst, hlast⟩
  · obtain ⟨middle, rest, rfl, htarget, hmiddle, hfold⟩ :=
      right skipped op target last hsecond hjump
    refine ⟨middle, rest, rfl, ?_, hmiddle, hfold⟩
    rw [htarget, size_append]
    simp only [Nat.add_assoc]
  · cases inner with
    | nil =>
      obtain ⟨middle, rest, rfl, htarget, hmiddle, hfold⟩ :=
        right [] op target last (by simpa using hlast.symm) hjump
      refine ⟨middle, rest, rfl, ?_, hmiddle, hfold⟩
      simpa [hfirst] using htarget
    | cons ins inner =>
      simp only [List.cons_append, List.cons.injEq] at hlast
      obtain ⟨rfl, rfl⟩ := hlast
      obtain ⟨middle, rest, rfl, htarget, hmiddle, hfold⟩ := left front op target inner hfirst hjump
      refine ⟨middle, rest ++ second, by simp, htarget, hmiddle, ?_⟩
      intro hends
      obtain ⟨hstart, hrest⟩ := hfold hends
      refine ⟨?_, by simp [filled]⟩
      cases rest with
      | nil => exact hrest rfl
      | cons head tail => exact hstart

theorem JumpsLand.skip
    (inner : JumpsLand field le (start + 2) false (middle ++ rest))
    (htarget : target = address le (start + 2 + size middle))
    (neutral : ∀ depth, flow middle depth = some depth)
    (apart : endsInField field middle = true → startsWithLoad rest = false) :
    JumpsLand field le start false
      (Ins.wide op target :: (middle ++ rest)) := by
  intro first other aim last split hjump
  cases first with
  | nil =>
    cases split
    exact ⟨middle, rest, rfl, by simpa using htarget, neutral,
      fun hends => ⟨apart hends, fun _ => rfl⟩⟩
  | cons head tail =>
    simp only [List.cons_append, List.cons.injEq] at split
    obtain ⟨rfl, split⟩ := split
    obtain ⟨center, remainder, rfl, haim, hcenter, hfold⟩ := inner tail other aim last split hjump
    refine ⟨center, remainder, rfl, ?_, hcenter, hfold⟩
    rw [haim, size_wide]
    simp only [Nat.add_assoc]

theorem JumpsLand.of_still (still : ∀ ins ∈ code, ins.op.isJump = false) :
    JumpsLand field le start loads code := by
  intro first op target last split hjump
  have member : Ins.wide op target ∈ code := by simp [split]
  have hstill := still _ member
  simp [Ins.op, hjump] at hstill

theorem Piece.nil (start depth : Nat) :
    Piece field le start depth depth [] where
  valid := by simp
  flows := fun _ => rfl
  jumps := JumpsLand.of_still (by simp)

theorem Piece.still (start : Nat) (hvalid : ∀ ins ∈ code, ins.valid = true)
    (still : ∀ ins ∈ code, ins.op.isJump = false)
    (hflow : ∀ depth, flow code (depth + before) = some (depth + after)) :
    Piece field le start before after code where
  valid := hvalid
  flows := hflow
  jumps := JumpsLand.of_still still

theorem Piece.deeper (piece : Piece field le start before after code)
    (more : Nat) :
    Piece field le start (before + more) (after + more) code where
  valid := piece.valid
  flows := by
    intro depth
    have hflow := piece.flows (depth + more)
    rwa [Nat.add_right_comm, Nat.add_right_comm depth more after,
      Nat.add_assoc, Nat.add_assoc depth after] at hflow
  jumps := piece.jumps

theorem Piece.appendSealed (left : Piece field le start before between first)
    (right : Piece field le (start + size first) between after second)
    (joined : JumpsLand field le start (startsWithLoad second) first) :
    Piece field le start before after (first ++ second) where
  valid := by
    intro ins member
    rcases List.mem_append.mp member with member | member
    · exact left.valid ins member
    · exact right.valid ins member
  flows := by
    intro depth
    rw [flow_append, left.flows, Option.bind_some, right.flows]
  jumps := by
    cases second with
    | nil => simpa using left.jumps
    | cons ins rest => exact joined.append right.jumps (by simp)

theorem Piece.append (left : Piece field le start before between first)
    (right : Piece field le (start + size first) between after second)
    (apart : startsWithLoad second = false) :
    Piece field le start before after (first ++ second) :=
  left.appendSealed right (by rw [apart]; exact left.jumps)

section

variable (hjump : op.isJump = true)

include hjump

theorem isJump_hasOperand : hasOperand op.word = true := by
  cases op <;> first | rfl | simp [Op.isJump] at hjump

theorem flow_jump (target : Word) (depth : Nat) :
    (Ins.wide op target).flow depth = some depth := by
  cases op <;> first | rfl | simp [Op.isJump] at hjump

theorem Piece.skip (piece : Piece field le (start + 2) 0 0 (middle ++ rest))
    (htarget : target = address le (start + 2 + size middle))
    (neutral : ∀ depth, flow middle depth = some depth)
    (apart : endsInField field middle = true → startsWithLoad rest = false) :
    Piece field le start 0 0 (Ins.wide op target :: (middle ++ rest)) where
  valid := by
    intro ins member
    rcases List.mem_cons.mp member with rfl | member
    · exact isJump_hasOperand hjump
    · exact piece.valid ins member
  flows := by
    intro depth
    rw [flow_cons, flow_jump hjump, Option.bind_some, piece.flows]
  jumps := piece.jumps.skip htarget neutral apart

theorem Piece.branch (piece : Piece field le (start + 2) 0 0 code)
    (htarget : target = address le (start + 2 + size code)) :
    Piece field le start 0 0 (Ins.wide op target :: code) := by
  have whole : Piece field le start 0 0 (Ins.wide op target :: (code ++ [])) :=
    Piece.skip hjump (by simpa using piece) htarget piece.flows (fun _ => rfl)
  simpa using whole

end

theorem JumpsLand.dropLoad
    (lands : JumpsLand field le start false (code ++ [Ins.wide .li type]))
    (unseen : ∀ first op target last, code ++ [Ins.wide .li type] =
        first ++ Ins.wide op target :: last →
      op.isJump = true →
      target ≠ address le (start + size code + 2)) :
    JumpsLand field le start true code := by
  intro first op target last split hjump
  have hsplit : code ++ [Ins.wide .li type] =
      first ++ Ins.wide op target :: (last ++ [Ins.wide .li type]) := by
    simp [split]
  obtain ⟨middle, rest, hlast, htarget, hmiddle, hfold⟩ := lands first op target _ hsplit hjump
  rcases List.eq_nil_or_concat rest with rfl | ⟨body, final, rfl⟩
  · refine absurd ?_ (unseen first op target _ hsplit hjump)
    have hsize : size middle = size last + 2 := by
      rw [← List.append_nil middle, ← hlast]
      simp
    rw [htarget, split, hsize]
    simp only [size_append, size_wide]
    congr 1
    omega
  · rw [List.concat_eq_append, ← List.append_assoc] at hlast
    obtain ⟨rfl, hfinal⟩ := List.append_inj' hlast rfl
    refine ⟨middle, body, rfl, htarget, hmiddle, ?_⟩
    intro hends
    obtain ⟨hstart, -⟩ := hfold hends
    rw [List.concat_eq_append, ← hfinal] at hstart
    cases body with
    | nil => exact absurd hstart (by simp [startsWithLoad])
    | cons head tail => exact ⟨hstart, by simp⟩

theorem JumpsLand.retype {type : Word}
    (lands : JumpsLand field le start false (code ++ [Ins.wide .li type]))
    (other : Word) :
    JumpsLand field le start false (code ++ [Ins.wide .li other]) := by
  intro first op target last split hjump
  obtain ⟨inner, rfl, rfl⟩ : ∃ inner, last = inner ++ [Ins.wide .li other] ∧
      code = first ++ Ins.wide op target :: inner := by
    rcases List.eq_nil_or_concat last with rfl | ⟨inner, final, rfl⟩
    · obtain ⟨-, hlast⟩ := List.append_inj' split rfl
      cases hlast
      cases hjump
    · rw [List.concat_eq_append, ← List.cons_append, ← List.append_assoc] at split
      obtain ⟨hcode, hfinal⟩ := List.append_inj' split rfl
      exact ⟨inner, by rw [List.concat_eq_append, ← hfinal], hcode⟩
  obtain ⟨middle, rest, hlast, htarget, hmiddle, hfold⟩ :=
    lands first op target (inner ++ [Ins.wide .li type]) (by simp) hjump
  rcases List.eq_nil_or_concat rest with rfl | ⟨body, final, rfl⟩
  · -- the jump passes by the load, whatever its type
    rw [List.append_nil] at hlast
    subst hlast
    refine ⟨inner ++ [Ins.wide .li other], [], (List.append_nil _).symm, ?_, ?_, ?_⟩
    · simpa using htarget
    · intro depth
      have hflow := hmiddle depth
      rw [flow_append] at hflow ⊢
      exact hflow
    · intro hends
      rw [endsInField_append _ (by simp)] at hends
      cases hends
  · rw [List.concat_eq_append, ← List.append_assoc] at hlast
    obtain ⟨rfl, hfinal⟩ := List.append_inj' hlast rfl
    refine ⟨middle, body ++ [Ins.wide .li other], List.append_assoc .., htarget,
      hmiddle, fun hends => ⟨?_, by simp⟩⟩
    obtain ⟨hstart, -⟩ := hfold hends
    rw [List.concat_eq_append, ← hfinal] at hstart
    cases body with
    | nil => exact absurd hstart (by simp [startsWithLoad])
    | cons head tail => exact hstart

theorem Piece.retype {type : Word}
    (piece : Piece field le start before after (code ++ [Ins.wide .li type]))
    (other : Word) :
    Piece field le start before after (code ++ [Ins.wide .li other]) where
  valid := by
    have hload := piece.valid (Ins.wide .li type) (by simp)
    exact valid_snoc (fun ins member => piece.valid ins (List.mem_append_left _ member)) hload
  flows := by
    intro depth
    have hflow := piece.flows depth
    rw [flow_append] at hflow ⊢
    exact hflow
  jumps := piece.jumps.retype other

end Pieces

end PerfProf.Expr
