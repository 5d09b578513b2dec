import Mathlib.Algebra.Order.Ring.Int

namespace PerfProf.Data

/-! Streams of words in which some words are followed by an operand. -/

universe u

variable {W : Type u} (wide : W → Bool)

def aligned : List W → Bool
  | [] => true
  | [word] => !wide word
  | word :: operand :: rest =>
    if wide word then aligned rest else aligned (operand :: rest)

@[simp] theorem aligned_nil : aligned wide [] = true := rfl

theorem aligned_narrow (narrow : wide word = false) (rest : List W) :
    aligned wide (word :: rest) = aligned wide rest := by
  cases rest <;> simp [aligned, narrow]

theorem aligned_wide (hwide : wide word = true) (operand : W) (rest : List W) :
    aligned wide (word :: operand :: rest) = aligned wide rest := by
  simp [aligned, hwide]

theorem aligned_append (haligned : aligned wide first = true)
    (second : List W) :
    aligned wide (first ++ second) = aligned wide second := by
  induction first using aligned.induct wide with
  | case1 => rfl
  | case2 word =>
    have narrow : wide word = false := by simpa [aligned] using haligned
    exact aligned_narrow wide narrow second
  | case3 word operand rest hwide ih =>
    rw [aligned_wide wide hwide] at haligned
    rw [List.cons_append, List.cons_append, aligned_wide wide hwide]
    exact ih haligned
  | case4 word operand rest narrow ih =>
    have narrow : wide word = false := by simpa using narrow
    rw [aligned_narrow wide narrow] at haligned
    rw [List.cons_append, aligned_narrow wide narrow]
    exact ih haligned

theorem not_aligned_wide_end (haligned : aligned wide first = true)
    (hwide : wide word = true) : aligned wide (first ++ [word]) = false := by
  rw [aligned_append wide haligned]
  simp [aligned, hwide]

end PerfProf.Data
