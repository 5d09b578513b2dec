import Mathlib.Algebra.BigOperators.Fin
import PerfProf.Kvmmmu.Page

namespace PerfProf.Kvmmmu

open Data

namespace KvmMmuPage

def KeyLt (first second : KvmMmuPage) : Prop :=
  first.gfn < second.gfn ∨ first.gfn = second.gfn ∧ first.role < second.role

def Matches (entry : Entry) (page : KvmMmuPage) : Prop :=
  page.gfn = entry.gfn ∧ page.role = entry.role

end KvmMmuPage

open KvmMmuPage

variable {page : KvmMmuPage}

theorem cmp_eq_iff :
    kvmMmuPageNodeCmp entry page = .eq ↔ page.Matches entry := by
  unfold kvmMmuPageNodeCmp Matches
  grind [BitVec.not_lt, BitVec.le_antisymm]

theorem cmp_lt_iff : kvmMmuPageNodeCmp entry page = .lt ↔ page.gfn < entry.gfn ∨
        page.gfn = entry.gfn ∧ page.role < entry.role := by
  unfold kvmMmuPageNodeCmp
  simp only [BitVec.lt_def, ← BitVec.toNat_inj]
  split_ifs <;> simp <;> omega

theorem cmp_gt_iff : kvmMmuPageNodeCmp entry page = .gt ↔ entry.gfn < page.gfn ∨
        entry.gfn = page.gfn ∧ entry.role < page.role := by
  unfold kvmMmuPageNodeCmp
  simp only [BitVec.lt_def, ← BitVec.toNat_inj]
  split_ifs <;> simp <;> omega

theorem cmp_mono (less : first.KeyLt second) :
    (kvmMmuPageNodeCmp entry first = .gt →
      kvmMmuPageNodeCmp entry second = .gt) ∧
    (kvmMmuPageNodeCmp entry second = .lt →
      kvmMmuPageNodeCmp entry first = .lt) := by
  rw [cmp_gt_iff, cmp_gt_iff, cmp_lt_iff, cmp_lt_iff]
  unfold KeyLt at less
  simp only [BitVec.lt_def, ← BitVec.toNat_inj] at *
  omega

section Level

variable {δ : Type} (balance : SearchTree.Balance δ KvmMmuPage)
  {pages : SearchTree δ KvmMmuPage} {entry : Entry}

def weight (pages : SearchTree δ KvmMmuPage) : Nat :=
  (pages.toList.map fun page => page.refcount.toNat).sum

def Ordered (pages : SearchTree δ KvmMmuPage) : Prop :=
  pages.toList.Pairwise KeyLt

def Held (pages : SearchTree δ KvmMmuPage) : Prop :=
  ∀ page ∈ pages.toList, page.refcount ≠ 0

theorem Ordered.guides (ordered : Ordered pages) (entry : Entry) :
    SearchTree.Guides (kvmMmuPageNodeCmp entry) pages.toList :=
  List.Pairwise.imp cmp_mono ordered

theorem Ordered.find_iff (ordered : Ordered pages) :
    (∃ page, pages.find (kvmMmuPageNodeCmp entry) = some page) ↔
      ∃ page ∈ pages.toList, page.Matches entry := by
  constructor
  · rintro ⟨page, hfind⟩
    exact ⟨page, SearchTree.mem_of_find hfind, cmp_eq_iff.mp (SearchTree.find_split hfind).1⟩
  · rintro ⟨page, hpage, hmatches⟩
    exact SearchTree.find_of_mem (ordered.guides entry) hpage (cmp_eq_iff.mpr hmatches)

variable {page : KvmMmuPage}

theorem weight_of_toList (hlist : pages.toList = before ++ page :: after) :
    weight pages = ((before ++ after).map fun page =>
      page.refcount.toNat).sum + page.refcount.toNat := by
  simp only [weight, hlist, List.map_append, List.map_cons, List.sum_append, List.sum_cons]
  omega

section

variable (hfind : pages.find (kvmMmuPageNodeCmp entry) = some page)

include hfind

variable {set : KvmMmuPage → KvmMmuPage}

theorem update_kept
    (same : (set page).gfn = page.gfn ∧ (set page).role = page.role)
    (ordered : Ordered pages) :
    Ordered (pages.update (kvmMmuPageNodeCmp entry) set) := by
  obtain ⟨-, before, after, hlist, hset, -⟩ := SearchTree.find_split hfind
  unfold Ordered at *
  rw [hlist, SearchTree.pairwise_around] at ordered
  rw [hset, SearchTree.pairwise_around]
  unfold KeyLt at *
  rw [same.1, same.2]
  exact ordered

theorem update_weight (set : KvmMmuPage → KvmMmuPage) :
    weight (pages.update (kvmMmuPageNodeCmp entry) set) + page.refcount.toNat =
      weight pages + (set page).refcount.toNat := by
  obtain ⟨-, before, after, hlist, hset, -⟩ := SearchTree.find_split hfind
  rw [weight_of_toList hlist, weight_of_toList (hset set)]
  omega

theorem update_held (held : Held pages) (hset : (set page).refcount ≠ 0) :
    Held (pages.update (kvmMmuPageNodeCmp entry) set) := by
  obtain ⟨-, before, after, hlist, hnew, -⟩ := SearchTree.find_split hfind
  intro other hother
  rw [hnew, List.mem_append, List.mem_cons] at hother
  rcases hother with hbefore | rfl | hafter
  · exact held other (by simp [hlist, hbefore])
  · exact hset
  · exact held other (by simp [hlist, hafter])

end

theorem addNode_new (ordered : Ordered pages) (held : Held pages)
    (absent : ∀ page ∈ pages.toList, ¬ page.Matches entry) :
    (addNode balance entry pages).2 = 0 ∧
    Ordered (addNode balance entry pages).1 ∧
    Held (addNode balance entry pages).1 ∧
    weight (addNode balance entry pages).1 = weight pages + 1 := by
  have hfind : pages.find (kvmMmuPageNodeCmp entry) = none := by
    cases hfind : pages.find (kvmMmuPageNodeCmp entry) with
    | none => rfl
    | some page =>
      obtain ⟨other, hother, hmatches⟩ := ordered.find_iff.mp ⟨page, hfind⟩
      exact absurd hmatches (absent other hother)
  obtain ⟨before, after, hlist, hbelow, habove, hlink⟩ :=
    SearchTree.find_none_split (ordered.guides entry) hfind
  have hnew : (addNode balance entry pages).1.toList = before ++
      { gfn := entry.gfn, role := entry.role, rootCount := entry.rootCount
        refcount := 1 } :: after := by
    simp only [addNode, hfind, SearchTree.Balance.settle_toList, hlink]
  refine ⟨by simp only [addNode, hfind], ?_, ?_, ?_⟩
  · unfold Ordered at *
    rw [hnew, SearchTree.pairwise_around]
    exact ⟨hlist ▸ ordered, fun other hother => cmp_lt_iff.mp (hbelow other hother),
      fun other hother => cmp_gt_iff.mp (habove other hother)⟩
  · intro page hpage
    rw [hnew, List.mem_append, List.mem_cons] at hpage
    rcases hpage with hbefore | rfl | hafter
    · exact held page (by simp [hlist, hbefore])
    · exact (by decide : (1 : U32) ≠ 0)
    · exact held page (by simp [hlist, hafter])
  · rw [weight_of_toList hnew, weight, hlist]
    rfl

theorem addNode_found
    (hfind : pages.find (kvmMmuPageNodeCmp entry) = some page) :
    addNode balance entry pages = (pages, eexist) := by
  simp only [addNode, hfind]

def Countable (entry : Entry) (pages : SearchTree δ KvmMmuPage) : Prop :=
  ∀ page, pages.find (kvmMmuPageNodeCmp entry) = some page → page.refcount.toNat + 1 < 2 ^ 32

theorem createPage_found
    (hfind : pages.find (kvmMmuPageNodeCmp entry) = some page) :
    createPage balance entry pages =
      (pages.update (kvmMmuPageNodeCmp entry) fun page =>
        { page with refcount := page.refcount + 1 }, eexist) := by
  simp only [createPage, addNode_found balance hfind, if_true]

theorem createPage_new (ordered : Ordered pages) (held : Held pages)
    (hfind : pages.find (kvmMmuPageNodeCmp entry) = none) :
    Ordered (createPage balance entry pages).1 ∧
    Held (createPage balance entry pages).1 ∧
    weight (createPage balance entry pages).1 = weight pages + 1 := by
  have habsent : ∀ page ∈ pages.toList, ¬ page.Matches entry := by
    intro page hpage hmatches
    obtain ⟨found, hfound⟩ := ordered.find_iff.mpr ⟨page, hpage, hmatches⟩
    rw [hfind] at hfound
    cases hfound
  obtain ⟨hret, hadded⟩ := addNode_new balance ordered held habsent
  have hcreate : createPage balance entry pages = addNode balance entry pages := by
    rw [createPage, hret, if_neg (by decide)]
  rw [hcreate]
  exact hadded

theorem createPage_kept (ordered : Ordered pages) (held : Held pages)
    (countable : Countable entry pages) :
    Ordered (createPage balance entry pages).1 ∧
    Held (createPage balance entry pages).1 ∧
    weight (createPage balance entry pages).1 = weight pages + 1 := by
  cases hfind : pages.find (kvmMmuPageNodeCmp entry) with
  | none => exact createPage_new balance ordered held hfind
  | some page =>
    have hroom := countable page hfind
    have hmore : (page.refcount + 1).toNat = page.refcount.toNat + 1 := by
      rw [BitVec.toNat_add]
      exact Nat.mod_eq_of_lt hroom
    rw [createPage_found balance hfind]
    refine ⟨update_kept hfind ⟨rfl, rfl⟩ ordered, update_held hfind held ?_, ?_⟩
    · intro hzero
      have hzero : page.refcount + 1 = 0 := hzero
      rw [hzero] at hmore
      cases hmore
    · have hweight := update_weight hfind fun page => { page with refcount := page.refcount + 1 }
      dsimp only at hweight ⊢
      omega

theorem createPage_wraps (wraps : ¬ Countable entry pages) :
    weight (createPage balance entry pages).1 ≠ weight pages + 1 := by
  unfold Countable at wraps
  push Not at wraps
  obtain ⟨page, hfind, hfull⟩ := wraps
  have hmore : (page.refcount + 1).toNat = 0 := by
    have hbound := page.refcount.isLt
    rw [BitVec.toNat_add, show page.refcount.toNat = 2 ^ 32 - 1 by omega]
    rfl
  rw [createPage_found balance hfind]
  have hweight := update_weight hfind fun page => { page with refcount := page.refcount + 1 }
  dsimp only at hweight ⊢
  omega

theorem dropPage_kept (ordered : Ordered pages) (held : Held pages)
    (hfind : pages.find (kvmMmuPageNodeCmp entry) = some page) :
    Ordered (dropPage balance entry page pages) ∧
    Held (dropPage balance entry page pages) ∧
    weight (dropPage balance entry page pages) + 1 = weight pages := by
  have hpositive := held page (SearchTree.mem_of_find hfind)
  have hless : (page.refcount - 1).toNat + 1 = page.refcount.toNat := by bv_omega
  unfold dropPage
  by_cases hlast : page.refcount - 1 = 0
  · obtain ⟨-, before, after, hlist, -, hout⟩ := SearchTree.find_split hfind
    rw [if_pos hlast]
    have hnew : (balance.settle pages
        (pages.unlink (kvmMmuPageNodeCmp entry))).toList = before ++ after := by
      rw [SearchTree.Balance.settle_toList, hout]
    refine ⟨?_, ?_, ?_⟩
    · unfold Ordered at *
      rw [hnew]
      rw [hlist] at ordered
      exact (SearchTree.pairwise_around.mp ordered).1
    · intro other hother
      rw [hnew, List.mem_append] at hother
      exact held other (by rw [hlist]; grind)
    · rw [weight_of_toList hlist, weight, hnew, ← hless, hlast]
      rfl
  · rw [if_neg hlast]
    refine ⟨update_kept hfind ⟨rfl, rfl⟩ ordered, update_held hfind held hlast, ?_⟩
    have hweight := update_weight hfind fun page => { page with refcount := page.refcount - 1 }
    dsimp only at hweight
    omega

/-- A root page that becomes invalid passes another page of its frame, or there
is an invalid page already when one of several is split off. -/
def Collides (page : KvmMmuPage) (pages : SearchTree δ KvmMmuPage) : Prop :=
  ∃ other ∈ pages.toList, other.gfn = page.gfn ∧
    if page.refcount = 1 then
      page.role < other.role ∧ other.role ≤ invalidate page.role
    else other.role = invalidate page.role

theorem le_invalidate (role : U32) : role ≤ invalidate role := by
  rw [BitVec.le_def, invalidate, BitVec.toNat_or]
  exact Nat.left_le_or

theorem invalidated_iff (ordered : Ordered pages)
    (hfind : pages.find (kvmMmuPageNodeCmp entry) = some page)
    (single : page.refcount = 1) :
    Ordered (pages.update (kvmMmuPageNodeCmp entry) fun page =>
      { page with role := invalidate page.role }) ↔ ¬ Collides page pages := by
  obtain ⟨-, before, after, hlist, hset, -⟩ := SearchTree.find_split hfind
  have hrole := le_invalidate page.role
  unfold Ordered at *
  rw [hlist, SearchTree.pairwise_around] at ordered
  obtain ⟨hothers, hbefore, hafter⟩ := ordered
  rw [hset, SearchTree.pairwise_around]
  simp only [Collides, single, if_true, hlist]
  constructor
  · rintro ⟨-, -, hnew⟩ ⟨other, hother, hgfn, habove, hwithin⟩
    rcases List.mem_append.mp hother with hin | hin
    · have hless := hbefore other hin
      unfold KeyLt at hless
      simp only [BitVec.lt_def, ← BitVec.toNat_inj] at *
      omega
    rcases List.mem_cons.mp hin with rfl | hin
    · exact absurd habove (BitVec.lt_irrefl _)
    · have hless := hnew other hin
      unfold KeyLt at hless
      simp only [BitVec.lt_def, BitVec.le_def, ← BitVec.toNat_inj] at *
      omega
  · intro apart
    refine ⟨hothers, ?_, ?_⟩
    · intro other hother
      have hless := hbefore other hother
      unfold KeyLt at *
      simp only [BitVec.lt_def, BitVec.le_def, ← BitVec.toNat_inj] at *
      omega
    · intro other hother
      have hless := hafter other hother
      have hfree : ¬ (other.gfn = page.gfn ∧ page.role < other.role ∧ other.role ≤ invalidate
          page.role) := fun collides => apart ⟨other, by simp [hother], collides⟩
      unfold KeyLt at *
      simp only [BitVec.lt_def, BitVec.le_def, ← BitVec.toNat_inj] at *
      omega

section

variable (ordered : Ordered pages) (held : Held pages)
  (hfind : pages.find (kvmMmuPageNodeCmp entry) = some page)

include ordered held hfind

theorem split_off (several : page.refcount ≠ 1) :
    let rest := pages.update (kvmMmuPageNodeCmp entry) fun page =>
      { page with refcount := page.refcount - 1 }
    Ordered rest ∧ Held rest ∧ weight rest + 1 = weight pages ∧
      ((∃ other ∈ rest.toList, other.gfn = page.gfn ∧
          other.role = invalidate page.role) ↔ Collides page pages) := by
  have hpositive := held page (SearchTree.mem_of_find hfind)
  have hless : (page.refcount - 1).toNat + 1 = page.refcount.toNat := by bv_omega
  have hrest : page.refcount - 1 ≠ 0 := by bv_omega
  have hweight := update_weight hfind fun page => { page with refcount := page.refcount - 1 }
  refine ⟨update_kept hfind ⟨rfl, rfl⟩ ordered, update_held hfind held hrest, ?_, ?_⟩
  · dsimp only at hweight
    omega
  · obtain ⟨-, before, after, hlist, hset, -⟩ := SearchTree.find_split hfind
    simp only [Collides, several, if_false, hlist, hset, List.mem_append,
      List.mem_cons, or_and_right, exists_or, exists_eq_left]

theorem invalidatePage_kept (apart : ¬ Collides page pages) :
    Ordered (invalidatePage balance entry page pages).1 ∧
    Held (invalidatePage balance entry page pages).1 ∧
    weight (invalidatePage balance entry page pages).1 = weight pages := by
  unfold invalidatePage
  by_cases single : page.refcount = 1
  · rw [if_pos single]
    refine ⟨(invalidated_iff ordered hfind single).mpr apart, update_held hfind held ?_, ?_⟩
    · exact single ▸ (by decide : (1 : U32) ≠ 0)
    · have hweight := update_weight hfind fun page => { page with role := invalidate page.role }
      dsimp only at hweight ⊢
      omega
  · rw [if_neg single]
    obtain ⟨hordered, hheld, hweight, hcollides⟩ := split_off ordered held hfind single
    have habsent : ∀ other ∈ (pages.update (kvmMmuPageNodeCmp entry) fun page =>
        { page with refcount := page.refcount - 1 }).toList,
        ¬ other.Matches { gfn := page.gfn, role := invalidate page.role
                          rootCount := page.rootCount } :=
      fun other hother hmatches => apart (hcollides.mp ⟨other, hother, hmatches⟩)
    obtain ⟨-, hnewOrdered, hnewHeld, hnewWeight⟩ := addNode_new balance hordered hheld habsent
    exact ⟨hnewOrdered, hnewHeld, hnewWeight.trans hweight⟩

theorem invalidatePage_broken (collides : Collides page pages) :
    ¬ Ordered (invalidatePage balance entry page pages).1 ∨
    weight (invalidatePage balance entry page pages).1 ≠ weight pages := by
  unfold invalidatePage
  by_cases single : page.refcount = 1
  · rw [if_pos single]
    exact .inl fun hordered => (invalidated_iff ordered hfind single).mp hordered collides
  · rw [if_neg single]
    obtain ⟨hordered, -, hweight, hcollides⟩ := split_off ordered held hfind single
    obtain ⟨other, hother, hmatches⟩ := hcollides.mpr collides
    have hmatches : other.Matches
        { gfn := page.gfn, role := invalidate page.role
          rootCount := page.rootCount } := hmatches
    obtain ⟨found, hfound⟩ := hordered.find_iff.mpr ⟨other, hother, hmatches⟩
    rw [addNode_found balance hfound]
    right
    dsimp only
    omega

end

theorem raiseRootCount_kept (entry : Entry) (ordered : Ordered pages)
    (held : Held pages) :
    Ordered (raiseRootCount entry pages).1 ∧
    Held (raiseRootCount entry pages).1 ∧
    weight (raiseRootCount entry pages).1 = weight pages := by
  cases hfind : pages.find (kvmMmuPageNodeCmp entry) with
  | none =>
    simp only [raiseRootCount, hfind]
    exact ⟨ordered, held, trivial⟩
  | some page =>
    simp only [raiseRootCount, hfind]
    refine ⟨update_kept hfind ⟨rfl, rfl⟩ ordered, update_held hfind held ?_, ?_⟩
    · exact held page (SearchTree.mem_of_find hfind)
    · exact Nat.add_right_cancel (update_weight hfind _)

end Level

section Generation

variable {δ : Type} (balance : SearchTree.Balance δ KvmMmuPage)

namespace KvmMmuGen

def total (gen : KvmMmuGen δ) : Nat :=
  ∑ level, weight (gen.kvmMmuPages level)

structure Sound (gen : KvmMmuGen δ) : Prop where
  ordered : ∀ level, Ordered (gen.kvmMmuPages level)
  counts : gen.total + gen.kvmMmuPrepareZapPage = gen.kvmMmuGetPageCreated

structure Counted (gen : KvmMmuGen δ) : Prop extends Sound gen where
  held : ∀ level, Held (gen.kvmMmuPages level)

theorem total_setPages (level : Fin 5) (pages : SearchTree δ KvmMmuPage)
    (gen : KvmMmuGen δ) :
    (gen.setPages level pages).total + weight (gen.kvmMmuPages level) =
      gen.total + weight pages :=
    by
  have hnew : (gen.setPages level pages).total =
      ∑ other, Function.update (fun other => weight (gen.kvmMmuPages other))
        level (weight pages) other := by
    refine Finset.sum_congr rfl fun other _ => ?_
    by_cases same : other = level
    · subst same
      simp [setPages]
    · simp [setPages, same]
  rw [hnew, Finset.sum_update_of_mem (Finset.mem_univ level), total,
    ← Finset.sum_sdiff (Finset.subset_univ {level}), Finset.sum_singleton]
  omega

theorem Counted.new (mmuValidGen : U64) :
    Counted (KvmMmuGen.new mmuValidGen : KvmMmuGen δ) where
  ordered := fun _ => List.Pairwise.nil
  counts := by simp [total, KvmMmuGen.new, weight]
  held := fun _ _ hpage => absurd hpage List.not_mem_nil

section Replace

variable {gen next : KvmMmuGen δ} {level : Fin 5}
  {pages : SearchTree δ KvmMmuPage}

theorem sound_replace (counted : Counted gen)
    (hpages : next.kvmMmuPages = Function.update gen.kvmMmuPages level pages) :
    Sound next ↔
      Ordered pages ∧
      weight pages + next.kvmMmuPrepareZapPage + gen.kvmMmuGetPageCreated =
        weight (gen.kvmMmuPages level) + gen.kvmMmuPrepareZapPage +
          next.kvmMmuGetPageCreated := by
  have htotal := total_setPages level pages gen
  have hsame : (gen.setPages level pages).total = next.total := by
    rw [total, total, hpages, setPages]
  have hcounts := counted.counts
  constructor
  · intro sound
    have hordered := sound.ordered level
    have hnext := sound.counts
    rw [hpages, Function.update_self] at hordered
    exact ⟨hordered, by omega⟩
  · rintro ⟨ordered, hchange⟩
    refine ⟨?_, by omega⟩
    intro other
    rw [hpages]
    by_cases same : other = level
    · subst same
      rwa [Function.update_self]
    · rw [Function.update_of_ne same]
      exact counted.ordered other

theorem counted_replace (counted : Counted gen)
    (hpages : next.kvmMmuPages = Function.update gen.kvmMmuPages level pages)
    (ordered : Ordered pages) (held : Held pages)
    (hchange : weight pages + next.kvmMmuPrepareZapPage +
      gen.kvmMmuGetPageCreated =
      weight (gen.kvmMmuPages level) + gen.kvmMmuPrepareZapPage +
        next.kvmMmuGetPageCreated) :
    Counted next := by
  refine ⟨(sound_replace counted hpages).mpr ⟨ordered, hchange⟩, ?_⟩
  intro other
  rw [hpages]
  by_cases same : other = level
  · subst same
    rwa [Function.update_self]
  · rw [Function.update_of_ne same]
    exact counted.held other

end Replace

def AllowsGet (entry : Entry) (created : Bool) (gen : KvmMmuGen δ) : Prop :=
  ∃ level, levelOf entry.role = some level ∧
    (created = true → Countable entry (gen.kvmMmuPages level))

def AllowsZap (entry : Entry) (gen : KvmMmuGen δ) : Prop :=
  ∃ level, levelOf entry.role = some level ∧
    ∀ page, (gen.kvmMmuPages level).find (kvmMmuPageNodeCmp entry) = some page →
      entry.rootCount ≠ 0 → ¬ Collides page (gen.kvmMmuPages level)

variable {created : Bool} {ret : Int}

theorem getPage_kept (counted : Counted gen)
    (allows : gen.AllowsGet entry created) :
    ∃ next ret, gen.getPage balance entry created = some (next, ret) ∧
      Counted next := by
  obtain ⟨level, hlevel, hcountable⟩ := allows
  have ordered := counted.ordered level
  have held := counted.held level
  simp only [getPage, hlevel]
  cases created with
  | true =>
    obtain ⟨hordered, hheld, hweight⟩ := createPage_kept balance ordered held (hcountable rfl)
    refine ⟨_, _, rfl, counted_replace counted rfl hordered hheld ?_⟩
    simp only [setPages, if_true, hweight]
    omega
  | false =>
    by_cases hgfn : entry.gfn = 0
    · obtain ⟨hordered, hheld, hweight⟩ := raiseRootCount_kept entry ordered held
      simp only [Bool.false_eq_true, if_false, hgfn, ne_eq, not_true_eq_false]
      refine ⟨_, _, rfl, counted_replace counted rfl hordered hheld ?_⟩
      simp only [setPages, hweight]
      omega
    · simp only [Bool.false_eq_true, if_false, hgfn, ne_eq, not_false_eq_true, if_true]
      refine ⟨_, _, rfl, counted_replace counted rfl ordered held ?_⟩
      simp only [setPages]
      omega

theorem getPage_broken (counted : Counted gen)
    (refused : ¬ gen.AllowsGet entry created)
    (hget : gen.getPage balance entry created = some (next, ret)) :
    ¬ Sound next := by
  cases hlevel : levelOf entry.role with
  | none => simp [getPage, hlevel] at hget
  | some level =>
    have hwraps : created = true ∧ ¬ Countable entry (gen.kvmMmuPages level) := by
      by_contra fine
      refine refused ⟨level, hlevel, fun hcreated => ?_⟩
      by_contra wraps
      exact fine ⟨hcreated, wraps⟩
    obtain ⟨rfl, hwraps⟩ := hwraps
    have hweight := createPage_wraps balance hwraps
    simp only [getPage, hlevel, if_true, Option.some.injEq, Prod.mk.injEq] at hget
    obtain ⟨rfl, -⟩ := hget
    rw [sound_replace counted rfl]
    rintro ⟨-, hchange⟩
    simp only [setPages] at hchange
    omega

theorem zapPage_kept (counted : Counted gen) (allows : gen.AllowsZap entry) :
    ∃ next ret, gen.zapPage balance entry = some (next, ret) ∧
      ∀ left ∈ next, Counted left := by
  obtain ⟨level, hlevel, hapart⟩ := allows
  have ordered := counted.ordered level
  have held := counted.held level
  simp only [zapPage, hlevel]
  cases hfind : (gen.kvmMmuPages level).find (kvmMmuPageNodeCmp entry) with
  | none => exact ⟨_, _, rfl, by simpa using counted⟩
  | some page =>
    by_cases hroot : entry.rootCount = 0
    · obtain ⟨hordered, hheld, hweight⟩ := dropPage_kept balance ordered held hfind
      simp only [hroot, if_true]
      refine ⟨_, _, rfl, ?_⟩
      intro left hleft
      split at hleft
      · cases hleft
      · cases hleft
        refine counted_replace counted rfl hordered hheld ?_
        simp only [setPages]
        omega
    · obtain ⟨hordered, hheld, hweight⟩ :=
        invalidatePage_kept balance ordered held hfind (hapart page hfind hroot)
      simp only [hroot, if_false]
      refine ⟨_, _, rfl, ?_⟩
      intro left hleft
      cases hleft
      refine counted_replace counted rfl hordered hheld ?_
      simp only [setPages]
      omega

theorem zapPage_broken (counted : Counted gen) (refused : ¬ gen.AllowsZap entry)
    (hzap : gen.zapPage balance entry = some (next, ret)) :
    ∃ left ∈ next, ¬ Sound left := by
  cases hlevel : levelOf entry.role with
  | none => simp [zapPage, hlevel] at hzap
  | some level =>
    have hcollides : ∃ page, (gen.kvmMmuPages level).find
        (kvmMmuPageNodeCmp entry) = some page ∧ entry.rootCount ≠ 0 ∧
        Collides page (gen.kvmMmuPages level) := by
      by_contra fine
      refine refused ⟨level, hlevel, fun page hfind hroot collides => ?_⟩
      exact fine ⟨page, hfind, hroot, collides⟩
    obtain ⟨page, hfind, hroot, collides⟩ := hcollides
    have hbroken := invalidatePage_broken balance
      (counted.ordered level) (counted.held level) hfind collides
    simp only [zapPage, hlevel, hfind, hroot, if_false, Option.some.injEq, Prod.mk.injEq] at hzap
    obtain ⟨rfl, -⟩ := hzap
    refine ⟨_, rfl, ?_⟩
    rw [sound_replace counted rfl]
    rintro ⟨hordered, hchange⟩
    rcases hbroken with disordered | hweight
    · exact disordered hordered
    · simp only [setPages] at hchange
      omega

end KvmMmuGen

open KvmMmuGen

def genOf (mmuValidGen : U64) (gens : List (KvmMmuGen δ)) :
    Option (KvmMmuGen δ) :=
  (gens.dropWhile fun gen => decide (gen.mmuValidGen ≠ mmuValidGen)).head?

def Allowed : Event → List (KvmMmuGen δ) → Prop
  | .getPage mmuValidGen entry created, gens =>
    ((genOf mmuValidGen gens).getD (.new mmuValidGen)).AllowsGet entry created
  | .zapPage mmuValidGen entry, gens =>
    ∀ gen, genOf mmuValidGen gens = some gen → gen.AllowsZap entry

variable {gens : List (KvmMmuGen δ)}

variable {mmuValidGen : U64} {event : Event}

theorem step_unknown (unknown : genOf mmuValidGen gens = none) :
    (∀ entry created, step balance (.getPage mmuValidGen entry created) gens =
      ((KvmMmuGen.new mmuValidGen).getPage balance entry created).map fun result
        => result.1 :: gens) ∧
    ∀ entry, step balance (.zapPage mmuValidGen entry) gens = some gens := by
  have hdrop := List.head?_eq_none_iff.mp unknown
  constructor
  · intro entry created
    simp only [step, kvmMmuGenGetPage, hdrop]
    cases (KvmMmuGen.new mmuValidGen).getPage balance entry created <;> rfl
  · intro entry
    simp only [step, kvmMmuGenZapPage, hdrop, Option.map_some]

theorem step_known (known : genOf mmuValidGen gens = some gen) :
    ∃ front rest, gens = front ++ gen :: rest ∧
      (∀ entry created, step balance (.getPage mmuValidGen entry created) gens =
        (gen.getPage balance entry created).map fun result => front ++
          result.1 :: rest) ∧
      ∀ entry, step balance (.zapPage mmuValidGen entry) gens =
        (gen.zapPage balance entry).map fun result => front ++
          (result.1.toList ++ rest) := by
  obtain ⟨rest, hdrop⟩ := List.head?_eq_some_iff.mp known
  refine ⟨gens.takeWhile fun gen => decide (gen.mmuValidGen ≠ mmuValidGen), rest, ?_, ?_, ?_⟩
  · rw [← hdrop, List.takeWhile_append_dropWhile]
  · intro entry created
    simp only [step, kvmMmuGenGetPage, hdrop]
    cases gen.getPage balance entry created <;> rfl
  · intro entry
    simp only [step, kvmMmuGenZapPage, hdrop]
    cases gen.zapPage balance entry <;> rfl

theorem step_kept (counted : ∀ gen ∈ gens, Counted gen)
    (allowed : Allowed event gens) :
    ∃ next, step balance event gens = some next ∧
      ∀ gen ∈ next, Counted gen := by
  cases event with
  | getPage mmuValidGen entry created =>
    simp only [Allowed] at allowed
    cases hgen : genOf mmuValidGen gens with
    | none =>
      rw [hgen] at allowed
      obtain ⟨next, ret, hget, hnext⟩ := getPage_kept balance (.new mmuValidGen) allowed
      refine ⟨next :: gens, ?_, ?_⟩
      · rw [(step_unknown balance hgen).1, hget]
        rfl
      · exact List.forall_mem_cons.mpr ⟨hnext, counted⟩
    | some gen =>
      rw [hgen] at allowed
      obtain ⟨front, rest, rfl, hstep, -⟩ := step_known balance hgen
      obtain ⟨next, ret, hget, hnext⟩ := getPage_kept balance (counted gen (by simp)) allowed
      refine ⟨front ++ next :: rest, ?_, ?_⟩
      · rw [hstep, hget]
        rfl
      · grind
  | zapPage mmuValidGen entry =>
    simp only [Allowed] at allowed
    cases hgen : genOf mmuValidGen gens with
    | none => exact ⟨gens, (step_unknown balance hgen).2 entry, counted⟩
    | some gen =>
      obtain ⟨front, rest, rfl, -, hstep⟩ := step_known balance hgen
      obtain ⟨next, ret, hzap, hnext⟩ :=
        zapPage_kept balance (counted gen (by simp)) (allowed gen hgen)
      refine ⟨front ++ (next.toList ++ rest), ?_, ?_⟩
      · rw [hstep, hzap]
        rfl
      · intro other hother
        rcases List.mem_append.mp hother with hfront | hother
        · exact counted other (List.mem_append_left _ hfront)
        rcases List.mem_append.mp hother with hleft | hrest
        · exact hnext other (Option.mem_toList.mp hleft)
        · exact counted other (List.mem_append_right _ (List.mem_cons_of_mem _ hrest))

theorem step_broken (counted : ∀ gen ∈ gens, Counted gen)
    (refused : ¬ Allowed event gens)
    (hstep : step balance event gens = some next) :
    ∃ gen ∈ next, ¬ Sound gen := by
  cases event with
  | getPage mmuValidGen entry created =>
    simp only [Allowed] at refused
    cases hgen : genOf mmuValidGen gens with
    | none =>
      rw [hgen] at refused
      rw [(step_unknown balance hgen).1] at hstep
      obtain ⟨⟨gen, ret⟩, hget, rfl⟩ := Option.map_eq_some_iff.mp hstep
      exact ⟨gen, List.mem_cons_self, getPage_broken balance (.new mmuValidGen) refused hget⟩
    | some gen =>
      rw [hgen] at refused
      obtain ⟨front, rest, rfl, hget, -⟩ := step_known balance hgen
      rw [hget] at hstep
      obtain ⟨⟨left, ret⟩, hleft, rfl⟩ := Option.map_eq_some_iff.mp hstep
      exact ⟨left, by simp, getPage_broken balance (counted gen (by simp)) refused hleft⟩
  | zapPage mmuValidGen entry =>
    simp only [Allowed] at refused
    push Not at refused
    obtain ⟨gen, hgen, refused⟩ := refused
    obtain ⟨front, rest, rfl, -, hzap⟩ := step_known balance hgen
    rw [hzap] at hstep
    obtain ⟨⟨left, ret⟩, hleft, rfl⟩ := Option.map_eq_some_iff.mp hstep
    obtain ⟨bad, hbad, unsound⟩ := zapPage_broken balance (counted gen (by simp)) refused hleft
    exact ⟨bad, by simp [Option.mem_def.mp hbad], unsound⟩

/-- Along a run every generation stays ordered and counted exactly when every
event names a level, no count wraps and no root page that becomes invalid
collides with another page of its frame. -/
theorem generations_counted_iff (balance : SearchTree.Balance δ KvmMmuPage)
    (events : List Event) :
    (∀ past, past <+: events →
      ∃ gens, run (step balance) past [] = some gens ∧
        ∀ gen ∈ gens, gen.Sound) ↔
      ∀ past event, past ++ [event] <+: events →
        ∀ gens, run (step balance) past [] = some gens →
          Allowed event gens := by
  refine run_always_iff (fun gens : List (KvmMmuGen δ) =>
    ∀ gen ∈ gens, Counted gen) (fun gens => ∀ gen ∈ gens, Sound gen) Allowed
    ?_ ?_ ?_ ?_
  · intro gens counted gen hgen
    exact (counted gen hgen).toSound
  · intro event gens counted allowed
    exact step_kept balance counted allowed
  · intro event gens next counted refused hstep sound
    obtain ⟨gen, hgen, unsound⟩ := step_broken balance counted refused hstep
    exact unsound (sound gen hgen)
  · intro gen hgen
    exact absurd hgen List.not_mem_nil

def reusedRoot : List Event :=
  let root : Entry := { gfn := 0x1000, role := 4, rootCount := 0 }
  let used : Entry := { root with rootCount := 1 }
  [.getPage 0 root true, .zapPage 0 used, .getPage 0 root true, .zapPage 0 used]

/-- Both become the same invalid page. -/
theorem reused_root_twice :
    ∃ (gen : KvmMmuGen Unit) (first second : KvmMmuPage),
      run (step (.plain KvmMmuPage)) reusedRoot [] = some [gen] ∧
      (gen.kvmMmuPages 3).toList = [first, second] ∧
      first.gfn = second.gfn ∧
      first.role = second.role := by
  refine ⟨_, _, _, rfl, rfl, ?_⟩
  decide

end Generation

end PerfProf.Kvmmmu
