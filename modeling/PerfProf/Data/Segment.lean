import Mathlib.Algebra.Order.Ring.Int
import Mathlib.Data.List.Basic

namespace PerfProf.Data

/-! Splitting the keys that satisfy a predicate into consecutive segments, along
a strict total order. -/

universe u

variable {K : Type u}

/-- A finite end of a segment; `strict` leaves the value itself out. -/
structure Cut (K : Type u) where
  value : K
  strict : Bool

def Cut.flip (cut : Cut K) : Cut K := { cut with strict := !cut.strict }

def After (r : K → K → Prop) (cut : Option (Cut K)) (key : K) : Prop :=
  ∀ point ∈ cut, r point.value key ∨ point.strict = false ∧ point.value = key

def Until (r : K → K → Prop) (cut : Option (Cut K)) (key : K) : Prop :=
  ∀ point ∈ cut, r key point.value ∨ point.strict = false ∧ point.value = key

@[simp] theorem after_none (r : K → K → Prop) (key : K) : After r none key := by
  intro point member
  cases member

@[simp] theorem until_none (r : K → K → Prop) (key : K) : Until r none key := by
  intro point member
  cases member

theorem after_some {r : K → K → Prop} : After r (some cut) key ↔
      r cut.value key ∨ cut.strict = false ∧ cut.value = key := by
  simp [After]

theorem until_some {r : K → K → Prop} : Until r (some cut) key ↔
      r key cut.value ∨ cut.strict = false ∧ cut.value = key := by
  simp [Until]

section Order

variable (r : K → K → Prop) [IsStrictTotalOrder K r]

theorem not_until_iff (cut : Cut K) (key : K) :
    ¬ Until r (some cut) key ↔ After r (some cut.flip) key := by
  rw [until_some, after_some]
  rcases trichotomous_of r cut.value key with less | same | greater
  · have hback : ¬ r key cut.value := asymm_of r less
    have hne : cut.value ≠ key := by
      rintro rfl
      exact irrefl_of r _ less
    simp [Cut.flip, less, hback, hne]
  · subst same
    have hirrefl := irrefl_of r cut.value
    cases hstrict : cut.strict <;> simp [Cut.flip, hirrefl, hstrict]
  · have hback : ¬ r cut.value key := asymm_of r greater
    have hne : cut.value ≠ key := by
      rintro rfl
      exact irrefl_of r _ greater
    simp [Cut.flip, greater, hback, hne]

def Tighter (old new : Option (Cut K)) : Prop :=
  ∀ start ∈ old, ∃ first ∈ new, r start.value first.value ∨
    start.value = first.value ∧ (start.strict = true → first.strict = true)

omit [IsStrictTotalOrder K r] in
theorem Tighter.refl (cut : Option (Cut K)) : Tighter r cut cut :=
  fun start member => ⟨start, member, .inr ⟨rfl, id⟩⟩

variable {r} in
theorem Tighter.trans (one : Tighter r first second)
    (two : Tighter r second third) : Tighter r first third := by
  intro start member
  obtain ⟨middle, hmiddle, hone⟩ := one start member
  obtain ⟨last, hlast, htwo⟩ := two middle hmiddle
  refine ⟨last, hlast, ?_⟩
  rcases hone with before | ⟨same, hstrict⟩
  · rcases htwo with behind | ⟨equal, _⟩
    · exact .inl (trans_of r before behind)
    · exact .inl (equal ▸ before)
  · rcases htwo with behind | ⟨equal, hopen⟩
    · exact .inl (same ▸ behind)
    · exact .inr ⟨same.trans equal, fun strict => hopen (hstrict strict)⟩

variable {r} in
theorem Tighter.after (tighter : Tighter r old new) (inside : After r new key) :
    After r old key := by
  intro start member
  obtain ⟨first, hfirst, hbehind⟩ := tighter start member
  rcases inside first hfirst with less | ⟨hclosed, rfl⟩
  · rcases hbehind with behind | ⟨same, _⟩
    · exact .inl (trans_of r behind less)
    · exact .inl (same ▸ less)
  · rcases hbehind with behind | ⟨same, hstrict⟩
    · exact .inl behind
    · refine .inr ⟨?_, same⟩
      cases hstart : start.strict with
      | false => rfl
      | true => simp [hstrict hstart] at hclosed

structure NextSegment (holds : K → Prop) (window near far : Option (Cut K)) :
    Prop where
  sound : ∀ key, After r near key → Until r far key → holds key
  complete : ∀ key, After r window key → holds key → After r near key
  tighter : Tighter r window near
  ordered : ∀ first ∈ near, ∀ last ∈ far, r first.value last.value ∨
    first.value = last.value ∧ first.strict = false ∧ last.strict = false

variable {r}

theorem NextSegment.after_of_not_until
    (segment : NextSegment r holds window near far)
    (behind : ¬ Until r far key) : After r near key := by
  cases far with
  | none => exact absurd (until_none r key) behind
  | some last =>
    rw [not_until_iff, after_some] at behind
    intro first member
    have hordered := segment.ordered first member last rfl
    rcases hordered with less | ⟨same, hfirst, hlast⟩
    · rcases behind with behind | ⟨_, rfl⟩
      · exact .inl (trans_of r less behind)
      · exact .inl less
    · rcases behind with behind | ⟨hstrict, _⟩
      · exact .inl (same ▸ behind)
      · simp [Cut.flip, hlast] at hstrict

theorem NextSegment.split (segment : NextSegment r holds window near far)
    (key : K) :
    After r window key ∧ holds key ↔
      After r near key ∧ Until r far key ∨ ¬ Until r far key ∧ holds key := by
  constructor
  · rintro ⟨inside, hholds⟩
    by_cases huntil : Until r far key
    · exact .inl ⟨segment.complete key inside hholds, huntil⟩
    · exact .inr ⟨huntil, hholds⟩
  · rintro (⟨hafter, huntil⟩ | ⟨behind, hholds⟩)
    · exact ⟨segment.tighter.after hafter, segment.sound key hafter huntil⟩
    · exact ⟨segment.tighter.after (segment.after_of_not_until behind), hholds⟩

theorem NextSegment.before (far : Option (Cut K)) (huntil : Until r far first)
    (behind : ¬ Until r far second) : r first second := by
  cases far with
  | none => exact absurd (until_none r second) behind
  | some last =>
    rw [not_until_iff, after_some] at behind
    rw [until_some] at huntil
    rcases huntil with less | ⟨hclosed, rfl⟩
    · rcases behind with behind | ⟨_, rfl⟩
      · exact trans_of r less behind
      · exact less
    · rcases behind with behind | ⟨hstrict, _⟩
      · exact behind
      · simp [Cut.flip, hclosed] at hstrict

end Order

section Rank

variable (r : K → K → Prop) [DecidableRel r]

def rank (values : List K) : Option (Cut K) → Nat
  | none => 2 * values.length + 2
  | some cut => 2 * values.countP (fun value => r cut.value value) + (!cut.strict).toNat

theorem rank_flip (values : List K) (cut : Cut K) :
    rank r values (some cut.flip) =
      2 * values.countP (fun value => r cut.value value) +
        cut.strict.toNat := by
  cases cut with
  | mk value strict => cases strict <;> rfl

variable {r} [IsStrictTotalOrder K r]

theorem countP_lt_of_before {values : List K} {first second : K}
    (before : r first second) (member : second ∈ values) :
    values.countP (fun value => r second value) <
      values.countP (fun value => r first value) := by
  have himp : ∀ value, r second value → r first value :=
    fun value behind => trans_of r before behind
  induction values with
  | nil => cases member
  | cons head tail ih =>
    have htail : tail.countP (fun value => r second value) ≤
        tail.countP (fun value => r first value) := by
      apply List.countP_mono_left
      intro value _ behind
      simpa using himp value (by simpa using behind)
    rw [List.countP_cons, List.countP_cons]
    rcases List.mem_cons.mp member with rfl | member
    · have hself := irrefl_of r second
      simp only [before, hself, decide_true, decide_false]
      simpa using Nat.lt_succ_of_le htail
    · have hless := ih member
      by_cases behind : r second head
      · simp only [behind, himp head behind, decide_true, if_true]
        omega
      · simp only [behind, decide_false]
        simp
        omega

theorem NextSegment.rank_lt {holds : K → Prop} {window near : Option (Cut K)}
    {last : Cut K} {values : List K}
    (segment : NextSegment r holds window near (some last))
    (member : last.value ∈ values) :
    rank r values (some last.flip) < rank r values window := by
  have hcount : values.countP (fun value => r last.value value) ≤
      values.length := List.countP_le_length
  have hbit := last.strict.toNat_le
  rw [rank_flip]
  cases window with
  | none =>
    rw [rank]
    omega
  | some start =>
    obtain ⟨first, hfirst, hstart⟩ := segment.tighter start rfl
    rcases segment.ordered first hfirst last rfl with less | ⟨same, hopen, hclosed⟩
    · have before : r start.value last.value := by
        rcases hstart with behind | ⟨same, _⟩
        · exact trans_of r behind less
        · exact same ▸ less
      have hfewer := countP_lt_of_before before member
      rw [rank]
      omega
    · rcases hstart with behind | ⟨equal, hstrict⟩
      · have hfewer := countP_lt_of_before (same ▸ behind) member
        rw [rank]
        omega
      · have hstart : start.strict = false := by
          cases hcase : start.strict with
          | false => rfl
          | true => simp [hstrict hcase] at hopen
        simp [rank, equal, same, hclosed, hstart]

end Rank

theorem filter_eq_append_of_before {α : Type u} {r : α → α → Prop}
    {whole first second : α → Bool} {keys : List α}
    (sorted : keys.Pairwise r)
    (hsplit : ∀ key ∈ keys, whole key = (first key || second key))
    (hdisjoint : ∀ key ∈ keys, first key = true → second key = false)
    (hbefore : ∀ left ∈ keys, ∀ right ∈ keys,
      second left = true → first right = true → ¬ r left right) :
    keys.filter whole = keys.filter first ++ keys.filter second := by
  induction keys with
  | nil => rfl
  | cons head tail ih =>
    rw [List.pairwise_cons] at sorted
    have htail := ih sorted.2 (fun key member => hsplit key (.tail head member))
      (fun key member => hdisjoint key (.tail head member))
      (fun left hleft right hright => hbefore left (.tail head hleft) right (.tail head hright))
    have hhead := hsplit head (.head tail)
    cases hfirst : first head with
    | true =>
      have hsecond := hdisjoint head (.head tail) hfirst
      simp [hhead, hfirst, hsecond, htail]
    | false =>
      cases hsecond : second head with
      | false => simp [hhead, hfirst, hsecond, htail]
      | true =>
        have hnone : tail.filter first = [] := by
          rw [List.filter_eq_nil_iff]
          intro key member htrue
          exact hbefore head (.head tail) key (.tail head member) hsecond
            htrue (sorted.1 key member)
        simp [hhead, hfirst, hsecond, htail, hnone]

section Position

variable {α : Type u}

variable {keys : List α} {p : α → Bool}

theorem lt_countP_iff {r : α → α → Prop} (sorted : keys.Pairwise r)
    (hdown : ∀ first second, r first second → p second = true → p first = true)
    (index : Nat) (bound : index < keys.length) :
    p keys[index] = true ↔ index < keys.countP p := by
  induction keys generalizing index with
  | nil => cases bound
  | cons head tail ih =>
    rw [List.pairwise_cons] at sorted
    cases hhead : p head with
    | true =>
      rw [List.countP_cons_of_pos hhead]
      cases index with
      | zero => simp [hhead]
      | succ index =>
        rw [List.getElem_cons_succ, ih sorted.2 index (by simpa using bound)]
        omega
    | false =>
      have hnone : ∀ key ∈ tail, ¬ p key = true := by
        intro key member htrue
        simp [hdown head key (sorted.1 key member) htrue] at hhead
      have hzero : tail.countP p = 0 := List.countP_eq_zero.mpr hnone
      rw [List.countP_cons_of_neg (by simp [hhead]), hzero]
      cases index with
      | zero => simp [hhead]
      | succ index => simp [hnone _ (List.getElem_mem _)]

theorem filter_eq_drop_take
    (position : ∀ index (bound : index < keys.length), p keys[index] = true ↔
        first ≤ index ∧ index < last) :
    keys.filter p = (keys.take last).drop first := by
  induction keys generalizing first last with
  | nil => simp
  | cons head tail ih =>
    have htail : tail.filter p = (tail.take (last - 1)).drop (first - 1) := by
      apply ih
      intro index bound
      have hindex := position (index + 1) (by simpa using bound)
      rw [List.getElem_cons_succ] at hindex
      rw [hindex]
      omega
    have hhead := position 0 (by simp)
    rw [List.getElem_cons_zero] at hhead
    cases last with
    | zero => simpa [List.filter_cons, show ¬ p head = true by simp [hhead]]
        using htail
    | succ last =>
      cases first with
      | zero => simp [hhead, htail]
      | succ first => simpa [List.filter_cons, show ¬ p head = true by simp [hhead]] using htail

theorem findIdx?_eq_of_position
    (position : ∀ index (bound : index < keys.length), p keys[index] = true ↔
        first ≤ index) :
    keys.findIdx? p = if first < keys.length then some first else none := by
  split_ifs with bound
  · rw [List.findIdx?_eq_some_iff_getElem]
    refine ⟨bound, (position first bound).mpr (Nat.le_refl first), ?_⟩
    intro index less htrue
    have hle := (position index (Nat.lt_trans less bound)).mp htrue
    omega
  · rw [List.findIdx?_eq_none_iff]
    intro key member
    obtain ⟨index, hindex, rfl⟩ := List.getElem_of_mem member
    rw [Bool.eq_false_iff]
    intro htrue
    have hle := (position index hindex).mp htrue
    omega

end Position

end PerfProf.Data
