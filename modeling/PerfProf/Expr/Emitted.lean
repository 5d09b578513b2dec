import PerfProf.Expr.Code

namespace PerfProf.Expr

open PerfProf.Data

/-! When a look-back of the compiler sees what it takes itself to see. -/

/-- What is asked of a compilation besides its look-backs: which constants are
addresses of fields, and whether byte swaps need an argument. -/
structure Rules where
  field : Word → Bool
  swaps : Bool

def isBranchWord (word : Word) : Bool :=
  word == Op.jmp.word || word == Op.bz.word || word == Op.bnz.word

def landsBehind (le : Word) (code : List Word) : Bool :=
  (List.range code.length).any fun place =>
    aligned hasOperand (code.take place) && (code[place]?.map isBranchWord).getD false &&
      code[place + 1]? == some (address le (code.length + 1))

/-- `*(e-1)` is the opcode of the last instruction. -/
def endsAligned (code : List Word) : Bool :=
  aligned hasOperand code.dropLast.dropLast

/-- When the next-to-last word has the value of `LI`, it is a load that no jump
passes by. -/
def looksRight (le : Word) (code : List Word) : Bool :=
  nextToLast code != Op.li.word || (endsAligned code && !landsBehind le code)

/-- When the next-to-last word has the value of `LI`, it is a load, or the last
word has the value of the type already. -/
def castRight (code : List Word) (type : Nat) : Bool :=
  nextToLast code != Op.li.word || endsAligned code ||
    code.getLast? == some (ofType type)

def derefRight (field : Word → Bool) (le : Word) (code : List Word) : Bool :=
  !(endsAligned code && nextToLast code == Op.imm.word &&
    field (code.getLastD 0) && landsBehind le code)

def swapWord (word : Word) : Bool :=
  word == Op.nthl.word || word == Op.nths.word

def Event.right (rules : Rules) (le : Word) : Event → Bool
  | .look code => looksRight le code
  | .cast code type => castRight code type
  | .deref code => derefRight rules.field le code
  | .call opcode count => !(rules.swaps && swapWord opcode && count == 0)

def Ins.isSwap (ins : Ins) : Bool := ins.op == .nthl || ins.op == .nths

def Swapped (code : List Ins) : Prop :=
  ∀ ins ∈ code, ins.isSwap = true → ∃ other ∈ code, other.op = .adj

namespace Swapped

theorem nil : Swapped [] := by simp [Swapped]

theorem append (left : Swapped first) (right : Swapped second) :
    Swapped (first ++ second) := by
  intro ins member hswap
  rcases List.mem_append.mp member with member | member
  · obtain ⟨other, hother, hadj⟩ := left ins member hswap
    exact ⟨other, List.mem_append_left second hother, hadj⟩
  · obtain ⟨other, hother, hadj⟩ := right ins member hswap
    exact ⟨other, List.mem_append_right first hother, hadj⟩

theorem cons (plain : ins.isSwap = false) (rest : Swapped code) :
    Swapped (ins :: code) := by
  intro other member hswap
  rcases List.mem_cons.mp member with rfl | member
  · rw [plain] at hswap
    cases hswap
  · obtain ⟨found, hfound, hadj⟩ := rest other member hswap
    exact ⟨found, List.mem_cons_of_mem ins hfound, hadj⟩

theorem dropLoad (swapped : Swapped (code ++ [Ins.wide .li type])) :
    Swapped code := by
  intro ins member hswap
  obtain ⟨other, hother, hadj⟩ := swapped ins (List.mem_append_left _ member) hswap
  rcases List.mem_append.mp hother with hother | hother
  · exact ⟨other, hother, hadj⟩
  · rw [List.mem_singleton.mp hother] at hadj
    cases hadj

end Swapped

structure Emitted (rules : Rules) (le : Word) (start : Nat)
    (code : List Ins) : Prop where
  piece : Piece rules.field le start 0 0 code
  shallow : Shallow code
  filled : code ≠ []
  opens : startsWithLoad code = false
  swaps : rules.swaps = true → Swapped code

section Landing

theorem wordsOf_split (split : code = first ++ Ins.wide op operand :: last) :
    base ++ wordsOf code =
      (base ++ wordsOf first) ++ (op.word :: operand :: wordsOf last) := by
  subst split
  simp [Ins.words]

theorem isBranchWord_of_isJump {op : Op} (hjump : op.isJump = true) :
    isBranchWord op.word = true := by
  cases op <;> first | rfl | simp [Op.isJump] at hjump

theorem landsBehind_of_jump {op : Op} {target : Word}
    (haligned : aligned hasOperand base = true)
    (hvalid : ∀ ins ∈ code, ins.valid = true)
    (split : code = first ++ Ins.wide op target :: last)
    (hjump : op.isJump = true)
    (htarget : target = address le (base.length + 1 + size code)) :
    landsBehind le (base ++ wordsOf code) = true := by
  have hfirst : ∀ ins ∈ first, ins.valid = true := fun ins member =>
    hvalid ins (by simp [split, member])
  have hlength : (base ++ wordsOf code).length = base.length + size code := by simp [size]
  apply List.any_eq_true.mpr
  refine ⟨(base ++ wordsOf first).length, ?_, ?_⟩
  · rw [wordsOf_split split]
    simp
  · rw [hlength, wordsOf_split split, List.take_left]
    rw [aligned_append hasOperand haligned, aligned_wordsOf hfirst]
    have hplace : ((base ++ wordsOf first) ++ (op.word :: target :: wordsOf last))[
          (base ++ wordsOf first).length]? = some op.word := by
      rw [List.getElem?_append_right (Nat.le_refl _)]
      simp
    have hnext : ((base ++ wordsOf first) ++ (op.word :: target :: wordsOf last))[
          (base ++ wordsOf first).length + 1]? = some target := by
      rw [List.getElem?_append_right (Nat.le_succ _)]
      simp
    rw [hplace, hnext, htarget]
    simp [isBranchWord_of_isJump hjump, Nat.add_right_comm]

end Landing

theorem nextToLast_append_pair (words : List Word) (word operand : Word) :
    nextToLast (words ++ [word, operand]) = word := by
  simp [nextToLast]

theorem dropLast_append_pair (words : List Word) (word operand : Word) :
    (words ++ [word, operand]).dropLast.dropLast = words := by
  simp

theorem not_loaded_before_plain (haligned : aligned hasOperand words = true)
    (loaded : nextToLast (words ++ [word]) = Op.li.word)
    (hends : endsAligned (words ++ [word]) = true) : False := by
  simp only [nextToLast, endsAligned, List.dropLast_concat] at loaded hends
  rcases List.eq_nil_or_concat words with rfl | ⟨rest, last, rfl⟩
  · exact absurd loaded (by decide)
  · simp only [List.concat_eq_append, List.getLast?_concat,
      Option.getD_some, List.dropLast_concat] at *
    have hfalse := not_aligned_wide_end hasOperand hends
      (show hasOperand last = true by rw [loaded]; rfl)
    rw [hfalse] at haligned
    cases haligned

theorem endsInField_iff {field : Word → Bool}
    (hends : endsInField field code = true) :
    ∃ rest value, code = rest ++ [Ins.wide .imm value] ∧
      field value = true := by
  rcases List.eq_nil_or_concat code with rfl | ⟨rest, last, rfl⟩
  · cases hends
  · simp only [List.concat_eq_append, endsInField, List.getLast?_concat] at *
    split at hends
    · rename_i value hlast
      cases hlast
      exact ⟨rest, value, rfl, hends⟩
    · cases hends

section Expression

variable {rules : Rules} {le : Word}

theorem JumpsLand.weaken {field : Word → Bool}
    (lands : JumpsLand field le start true code) :
    JumpsLand field le start false code := by
  intro first op target last split hjump
  obtain ⟨middle, rest, hlast, htarget, hmiddle, hfold⟩ := lands first op target last split hjump
  exact ⟨middle, rest, hlast, htarget, hmiddle, fun hends => ⟨(hfold hends).1, fun _ => rfl⟩⟩

theorem JumpsLand.followed {field : Word → Bool}
    (lands : JumpsLand field le start false code)
    (plain : endsInField field code = false) :
    JumpsLand field le start true code := by
  intro first op target last split hjump
  obtain ⟨middle, rest, hlast, htarget, hmiddle, hfold⟩ := lands first op target last split hjump
  refine ⟨middle, rest, hlast, htarget, hmiddle, ?_⟩
  intro hends
  refine ⟨(hfold hends).1, ?_⟩
  rintro rfl
  rw [List.append_nil] at hlast
  subst hlast split
  have filled : last ≠ [] := by
    rintro rfl
    exact absurd hends (by simp [endsInField])
  rw [List.append_cons, endsInField_append _ filled, hends] at plain
  exact absurd plain (by simp)

namespace Emitted

theorem extend (emitted : Emitted rules le start code)
    (piece : Piece rules.field le (start + size code) 0 0 more)
    (shallow : Shallow (code ++ more)) (apart : startsWithLoad more = false)
    (swaps : rules.swaps = true → Swapped more) :
    Emitted rules le start (code ++ more) where
  piece := emitted.piece.append piece apart
  shallow := shallow
  filled := by simp [emitted.filled]
  opens := by
    rw [startsWithLoad_append more emitted.filled]
    exact emitted.opens
  swaps := fun hswaps => (emitted.swaps hswaps).append (swaps hswaps)

theorem operate (hleft : Emitted rules le start left)
    (hright : Emitted rules le (start + size left + 1) right)
    (hvalid : last.valid = true) (still : last.op.isJump = false)
    (hflow : ∀ depth, last.flow (depth + 1) = some depth)
    (kept : last.isSwap = false) :
    Emitted rules le start (left ++ Ins.plain .psh :: (right ++ [last])) where
  piece := by
    have hpush : Piece rules.field le (start + size left) 0 1 [Ins.plain .psh] :=
      Piece.still _ (by decide) (by decide) fun _ => rfl
    have hlast : Piece rules.field le (start + size left + 1 + size right) 1 0 [last] :=
      Piece.still _ (by simpa using hvalid) (by simpa using still) (by simp [hflow])
    have hbody : Piece rules.field le (start + size left + 1) 1 0 (right ++ [last]) :=
      (hright.piece.deeper 1).append hlast (by
        cases last with
        | plain op => rfl
        | wide op operand =>
          cases op <;> first | rfl | (have hzero := hflow 0; simp [Ins.flow] at hzero))
    have hopens : startsWithLoad (right ++ [last]) = false := by
      rw [startsWithLoad_append _ hright.filled]
      exact hright.opens
    exact hleft.piece.append (hpush.append hbody hopens) rfl
  shallow := by
    have hlast : last ≠ Ins.plain .psh := by
      rintro rfl
      exact absurd (hflow 0) (by decide)
    exact hleft.shallow.push hleft.piece.flows hleft.filled (hright.shallow.append (.single hlast))
  filled := by simp
  opens := by
    rw [startsWithLoad_append _ hleft.filled]
    exact hleft.opens
  swaps := fun hswaps =>
    (hleft.swaps hswaps).append (.cons rfl ((hright.swaps hswaps).append (.cons kept .nil)))

theorem load (emitted : Emitted rules le start code)
    (lands : JumpsLand rules.field le start true code) (type : Word) :
    Emitted rules le start (code ++ [Ins.wide .li type]) where
  piece := by
    have hload : Piece rules.field le (start + size code) 0 0 [Ins.wide .li type] :=
      Piece.still _ (by simp [Ins.valid]; decide) (by simp [Ins.op]; decide) fun _ => rfl
    exact emitted.piece.appendSealed hload lands
  shallow := emitted.shallow.append (.single (by simp))
  filled := by simp
  opens := by
    rw [startsWithLoad_append _ emitted.filled]
    exact emitted.opens
  swaps := fun hswaps => (emitted.swaps hswaps).append (.cons rfl .nil)

theorem unload (emitted : Emitted rules le start (code ++ [Ins.wide .li type]))
    (lands : JumpsLand rules.field le start true code) :
    Emitted rules le start code where
  piece :=
    { valid := fun ins member => emitted.piece.valid ins (by simp [member])
      flows := by
        intro depth
        have hflow := emitted.piece.flows depth
        rw [flow_append] at hflow
        obtain ⟨last, hlast, hload⟩ := Option.bind_eq_some_iff.mp hflow
        simp only [flow_cons, Ins.flow, Option.bind_some, flow_nil, Option.some.injEq] at hload
        rw [hlast, hload]
      jumps := lands.weaken }
  shallow := emitted.shallow.dropLoad
  filled := by
    rintro rfl
    exact absurd emitted.opens (by simp [startsWithLoad])
  opens := by
    cases code with
    | nil => rfl
    | cons ins rest => exact emitted.opens
  swaps := fun hswaps => (emitted.swaps hswaps).dropLoad

theorem retype (emitted : Emitted rules le start (code ++ [Ins.wide .li type]))
    (other : Word) :
    Emitted rules le start (code ++ [Ins.wide .li other]) where
  piece := emitted.piece.retype other
  shallow := emitted.shallow.dropLoad.append (.single (by simp))
  filled := by simp
  opens := by
    cases code with
    | nil => exact emitted.opens
    | cons ins rest => exact emitted.opens
  swaps := fun hswaps =>
    (emitted.swaps hswaps).dropLoad.append (.cons rfl .nil)

theorem shortCircuit (hleft : Emitted rules le start left)
    (hright : Emitted rules le (start + size left + 2) right)
    (hjump : op.isJump = true)
    (htarget : target = address le (start + size left + 2 + size right)) :
    Emitted rules le start (left ++ Ins.wide op target :: right) := by
  refine hleft.extend (hright.piece.branch hjump htarget)
    (hleft.shallow.append (.cons (by simp) hright.shallow)) ?_ ?_
  · cases op <;> first | rfl | simp [Op.isJump] at hjump
  · intro hswaps
    refine .cons ?_ (hright.swaps hswaps)
    cases op <;> first | rfl | simp [Op.isJump] at hjump

theorem conditional (htest : Emitted rules le start test)
    (hleft : Emitted rules le (start + size test + 2) left)
    (hright : Emitted rules le (start + size test + 2 + size left + 2) right)
    (hother : other = address le (start + size test + 2 + size left + 2))
    (hafter :
      after = address le (start + size test + 2 + size left + 2 + size right)) :
    Emitted rules le start (test ++ Ins.wide .bz other ::
      (left ++ Ins.wide .jmp after :: right)) := by
  have htail : Piece rules.field le (start + size test + 2 + size left) 0 0
      (Ins.wide .jmp after :: right) := hright.piece.branch rfl hafter
  have hbody := hleft.piece.append htail rfl
  have hskip : Piece rules.field le (start + size test) 0 0
      (Ins.wide .bz other :: (left ++ [Ins.wide .jmp after] ++ right)) := by
    refine Piece.skip rfl (by simpa using hbody) ?_ ?_ ?_
    · rw [hother]
      simp [Nat.add_assoc]
    · intro depth
      have hflow := hleft.piece.flows depth
      simp only [Nat.add_zero] at hflow
      rw [flow_append, hflow]
      rfl
    · intro hends
      rw [endsInField_append _ (by simp)] at hends
      exact absurd hends (by simp [endsInField])
  refine htest.extend (by simpa using hskip) (htest.shallow.append (.cons (by simp)
    (hleft.shallow.append (.cons (by simp) hright.shallow)))) rfl ?_
  exact fun hswaps => .cons rfl ((hleft.swaps hswaps).append (.cons rfl (hright.swaps hswaps)))

section LookBack

variable {base : List Word} {code : List Ins}

section

variable (haligned : aligned hasOperand base = true)
  (emitted : Emitted rules le (base.length + 1) code)

include haligned emitted

theorem endsInLoad (loaded : nextToLast (base ++ wordsOf code) = Op.li.word)
    (hends : endsAligned (base ++ wordsOf code) = true) :
    ∃ rest type, code = rest ++ [Ins.wide .li type] := by
  obtain ⟨rest, last, rfl⟩ := (List.eq_nil_or_concat code).resolve_left emitted.filled
  rw [List.concat_eq_append] at *
  have hrest : aligned hasOperand (base ++ wordsOf rest) = true := by
    rw [aligned_append hasOperand haligned]
    exact aligned_wordsOf fun ins member => emitted.piece.valid ins (by simp [member])
  rw [wordsOf_append, ← List.append_assoc] at loaded hends
  cases last with
  | plain op => exact (not_loaded_before_plain hrest loaded hends).elim
  | wide op type =>
    have hword : op.word = Op.li.word := (nextToLast_append_pair _ op.word type).symm.trans loaded
    cases Op.word_inj hword
    exact ⟨rest, type, rfl⟩

theorem looked (loaded : nextToLast (base ++ wordsOf code) = Op.li.word)
    (right : looksRight le (base ++ wordsOf code) = true) :
    ∃ rest type, code = rest ++ [Ins.wide .li type] ∧
      JumpsLand rules.field le (base.length + 1) true rest := by
  simp only [looksRight, loaded, bne_self_eq_false, Bool.false_or,
    Bool.and_eq_true, Bool.not_eq_true'] at right
  obtain ⟨hends, hunseen⟩ := right
  obtain ⟨rest, type, rfl⟩ := emitted.endsInLoad haligned loaded hends
  refine ⟨rest, type, rfl, emitted.piece.jumps.dropLoad ?_⟩
  intro first op target last split hjump htarget
  have hseen := landsBehind_of_jump haligned emitted.piece.valid split
    hjump (by simpa [Nat.add_assoc] using htarget)
  rw [hseen] at hunseen
  cases hunseen

theorem dereferenced
    (right : derefRight rules.field le (base ++ wordsOf code) = true) :
    JumpsLand rules.field le (base.length + 1) true code := by
  cases hfield : endsInField rules.field code with
  | false => exact emitted.piece.jumps.followed hfield
  | true =>
    intro first op target last split hjump
    obtain ⟨middle, rest, rfl, htarget, hmiddle, hfold⟩ :=
      emitted.piece.jumps first op target last split hjump
    refine ⟨middle, rest, rfl, htarget, hmiddle, ?_⟩
    intro hends
    refine ⟨(hfold hends).1, ?_⟩
    rintro rfl
    have hseen : landsBehind le (base ++ wordsOf code) = true := landsBehind_of_jump haligned
      emitted.piece.valid split hjump (by rw [htarget, split]; simp [Nat.add_assoc])
    obtain ⟨before, value, rfl, hvalue⟩ := endsInField_iff hfield
    have hbefore : aligned hasOperand (base ++ wordsOf before) = true := by
      rw [aligned_append hasOperand haligned]
      exact aligned_wordsOf fun ins member => emitted.piece.valid ins (by simp [member])
    have hwords : base ++ wordsOf (before ++ [Ins.wide .imm value]) =
        (base ++ wordsOf before) ++ [Op.imm.word, value] := by
      simp [Ins.words]
    rw [hwords] at hseen right
    generalize base ++ wordsOf before = words at hbefore hseen right
    simp [derefRight, endsAligned, nextToLast_append_pair, hbefore, hvalue, hseen] at right

end

end LookBack

end Emitted

end Expression

end PerfProf.Expr
