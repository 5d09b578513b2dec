import PerfProf.Expr.WellFormed
import PerfProf.Tep.Filter

namespace PerfProf.Tep

open PerfProf.Expr

def valueOr (fallback : Word) (result : Option Word) : Option Word :=
  result.map fun value => if value = -1 then fallback else value

inductive Accessor where
  | key | role | num | memPtr | memSize
  deriving DecidableEq, Repr

def Accessor.fallback : Accessor → Word
  | .key | .role | .num | .memPtr => 0
  | .memSize => 1

section

variable (lib : Library) (fuel : Nat) (prog : Filter) (global : Sample)
  (mem : Mem)

def Accessor.get (accessor : Accessor) : Option Word :=
  valueOr accessor.fallback (tpProgRun lib fuel prog global mem)

def tpGetKey : Option Word := Accessor.key.get lib fuel prog global mem

def tpGetRole : Option Word := Accessor.role.get lib fuel prog global mem

def tpGetNum : Option Word := Accessor.num.get lib fuel prog global mem

def tpGetMemPtr : Option Word := Accessor.memPtr.get lib fuel prog global mem

def tpGetMemSize : Option Word := Accessor.memSize.get lib fuel prog global mem

theorem Accessor.fallback_ne (accessor : Accessor) :
    accessor.fallback ≠ -1 := by
  cases accessor <;> decide

/-- Every accessor returns the value of its expression when the record is
loaded, and its fallback only when it is not, if and only if that value is not
-1. -/
theorem accessors_exact_iff {value : Word}
    (hvalue : ∀ loaded, exprLoadGlobal prog global mem = some loaded →
      exprRun lib fuel prog loaded = some value) :
    (∀ accessor : Accessor, accessor.get lib fuel prog global mem =
        some (if (exprLoadGlobal prog global mem).isSome then
          value
        else accessor.fallback)) ↔
      ((exprLoadGlobal prog global mem).isSome = true → value ≠ -1) := by
  unfold Accessor.get tpProgRun
  cases hload : exprLoadGlobal prog global mem with
  | none => simp [valueOr]
  | some loaded =>
    simp only [hvalue loaded hload, valueOr, Option.map_some, Option.isSome_some, if_true,
      Option.some.injEq, forall_const]
    constructor
    · rintro hsame rfl
      exact Accessor.key.fallback_ne (hsame .key)
    · intro hother accessor
      exact if_neg hother

end

def fieldProg : Filter where
  prog := ((compile 20 plainAlloc true plainDeclares (text "c")).toOption.map Prod.fst).getD
    ⟨0, [], [], 0, 0, 0, 0⟩
  glo := plainAlloc.glo

def recordOf (c : Byte) : Sample where
  evsel := 0
  cpu := 0
  pid := 0
  time := 0
  raw := List.replicate 12 c

def noLibrary : Library := ⟨fun _ _ => 0, 0, 0⟩

theorem exprLoadGlobal_field (c : Byte) (mem : Mem) :
    exprLoadGlobal fieldProg (recordOf c) mem =
      some (fieldProg.loaded (recordOf c) mem) := by
  have hsize : fieldProg.datasize = 256 := by decide +kernel
  simp [exprLoadGlobal, hsize, recordOf]

theorem accessors_exact_iff_zero :
    (∀ accessor : Accessor, accessor.get noLibrary 3 fieldProg (recordOf 0)
        (fun _ => 1) =
        some (if (exprLoadGlobal fieldProg (recordOf 0) fun _ => 1).isSome then
          0
        else accessor.fallback)) ↔
      ((exprLoadGlobal fieldProg (recordOf 0) fun _ => 1).isSome = true →
        (0 : Word) ≠ -1) := by
  refine accessors_exact_iff noLibrary 3 fieldProg (recordOf 0) (fun _ => 1) ?_
  intro loaded hload
  cases (exprLoadGlobal_field 0 _).symm.trans hload
  decide +kernel

/-- The record is loaded and its field is -1: the key is 0 and the size is 1. -/
theorem minus_one_is_lost :
    (∃ loaded,
      exprLoadGlobal fieldProg (recordOf 255) (fun _ => 1) = some loaded ∧
      exprRun noLibrary 3 fieldProg loaded = some (-1)) ∧
    tpGetKey noLibrary 3 fieldProg (recordOf 255) (fun _ => 1) = some 0 ∧
    tpGetMemSize noLibrary 3 fieldProg (recordOf 255) (fun _ => 1) = some 1 :=
  ⟨⟨_, exprLoadGlobal_field 255 _, by decide +kernel⟩, by decide +kernel, by decide +kernel⟩

end PerfProf.Tep
