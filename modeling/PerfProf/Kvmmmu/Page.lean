import PerfProf.Data.SearchTree
import PerfProf.Data.Transition

namespace PerfProf.Kvmmmu

open Data

/-! The shadow pages of a virtual machine, one search tree for each level of
each generation. -/

abbrev U32 := BitVec 32
abbrev U64 := BitVec 64

structure KvmMmuPage where
  gfn : U64
  role : U32
  rootCount : U32
  refcount : U32
  deriving DecidableEq, Repr

structure Entry where
  gfn : U64
  role : U32
  rootCount : U32
  deriving DecidableEq, Repr

def kvmMmuPageNodeCmp (e : Entry) (b : KvmMmuPage) : Ordering :=
  if e.gfn < b.gfn then .gt
  else if b.gfn < e.gfn then .lt
  else if e.role < b.role then .gt
  else if b.role < e.role then .lt
  else .eq

def invalidate (role : U32) : U32 := role ||| 0x800

/-- `role.level - 1` as an index of `kvm_mmu_pages`; other levels are outside
the array. -/
def levelOf (role : U32) : Option (Fin 5) :=
  let level := (role &&& 0xf).toNat
  if h : 1 ≤ level ∧ level ≤ 5 then some ⟨level - 1, by omega⟩ else none

structure KvmMmuGen (δ : Type) where
  mmuValidGen : U64
  kvmMmuPages : Fin 5 → SearchTree δ KvmMmuPage
  kvmMmuGetPage : Nat
  kvmMmuGetPageCreated : Nat
  kvmMmuPrepareZapPage : Nat

def eexist : Int := -17

section Gen

variable {δ : Type} (balance : SearchTree.Balance δ KvmMmuPage)

def addNode (entry : Entry) (pages : SearchTree δ KvmMmuPage) :
    SearchTree δ KvmMmuPage × Int :=
  let probe := kvmMmuPageNodeCmp entry
  match pages.find probe with
  | some _ => (pages, eexist)
  | none =>
    (balance.settle pages (pages.link probe balance.fresh
      { gfn := entry.gfn, role := entry.role, rootCount := entry.rootCount
        refcount := 1 }), 0)

/-- The branch `if (created)`: a page that is there already is counted. -/
def createPage (entry : Entry) (pages : SearchTree δ KvmMmuPage) :
    SearchTree δ KvmMmuPage × Int :=
  let added := addNode balance entry pages
  if added.2 = eexist then
    (added.1.update (kvmMmuPageNodeCmp entry) fun page =>
      { page with refcount := page.refcount + 1 }, added.2)
  else added

def raiseRootCount (entry : Entry) (pages : SearchTree δ KvmMmuPage) :
    SearchTree δ KvmMmuPage × Int :=
  let probe := kvmMmuPageNodeCmp entry
  match pages.find probe with
  | some _ =>
    (pages.update probe fun page =>
      { page with
        rootCount :=
          if page.rootCount < entry.rootCount then entry.rootCount
          else page.rootCount }, 0)
  | none => (pages, -1)

def dropPage (entry : Entry) (page : KvmMmuPage)
    (pages : SearchTree δ KvmMmuPage) : SearchTree δ KvmMmuPage :=
  let probe := kvmMmuPageNodeCmp entry
  if page.refcount - 1 = 0 then balance.settle pages (pages.unlink probe)
  else pages.update probe fun page => { page with refcount := page.refcount - 1 }

def invalidatePage (entry : Entry) (page : KvmMmuPage)
    (pages : SearchTree δ KvmMmuPage) : SearchTree δ KvmMmuPage × Int :=
  let probe := kvmMmuPageNodeCmp entry
  if page.refcount = 1 then
    (pages.update probe fun page => { page with role := invalidate page.role }, 0)
  else
    addNode balance
      { gfn := page.gfn, role := invalidate page.role
        rootCount := page.rootCount }
      (pages.update probe fun page => { page with refcount := page.refcount - 1 })

namespace KvmMmuGen

def new (mmuValidGen : U64) : KvmMmuGen δ :=
  { mmuValidGen := mmuValidGen, kvmMmuPages := fun _ => .leaf
    kvmMmuGetPage := 0, kvmMmuGetPageCreated := 0, kvmMmuPrepareZapPage := 0 }

def setPages (level : Fin 5) (pages : SearchTree δ KvmMmuPage)
    (gen : KvmMmuGen δ) : KvmMmuGen δ :=
  { gen with kvmMmuPages := Function.update gen.kvmMmuPages level pages }

/-- `kvm_mmu_gen_get_page()` from `found:` on. -/
def getPage (entry : Entry) (created : Bool) (gen : KvmMmuGen δ) :
    Option (KvmMmuGen δ × Int) :=
  match levelOf entry.role with
  | none => none
  | some level =>
    let pages := gen.kvmMmuPages level
    let result :=
      if created then createPage balance entry pages
      else if entry.gfn ≠ 0 then (pages, -1)
      else raiseRootCount entry pages
    some ({ gen.setPages level result.1 with
      kvmMmuGetPage := gen.kvmMmuGetPage + 1
      kvmMmuGetPageCreated :=
        gen.kvmMmuGetPageCreated + if created then 1 else 0 }, result.2)

def obsolete (gen : KvmMmuGen δ) : Bool :=
  (List.finRange 5).all fun level => (gen.kvmMmuPages level).toList.isEmpty

/-- `kvm_mmu_gen_zap_page()` from `found:` on; a generation without pages is
dropped. -/
def zapPage (entry : Entry) (gen : KvmMmuGen δ) :
    Option (Option (KvmMmuGen δ) × Int) :=
  match levelOf entry.role with
  | none => none
  | some level =>
    let pages := gen.kvmMmuPages level
    match pages.find (kvmMmuPageNodeCmp entry) with
    | none => some (some gen, -1)
    | some page =>
      if entry.rootCount = 0 then
        let gen :=
          { gen.setPages level (dropPage balance entry page pages) with
            kvmMmuPrepareZapPage := gen.kvmMmuPrepareZapPage + 1 }
        some (if gen.obsolete then none else some gen, 0)
      else
        let result := invalidatePage balance entry page pages
        some (some (gen.setPages level result.1), result.2)

end KvmMmuGen

/-- `kvm_mmu_gen_get_page()`: a generation that is not known is entered in front
of the list. -/
def kvmMmuGenGetPage (mmuValidGen : U64) (entry : Entry) (created : Bool)
    (gens : List (KvmMmuGen δ)) : Option (List (KvmMmuGen δ) × Int) :=
  let other := fun gen : KvmMmuGen δ => decide (gen.mmuValidGen ≠ mmuValidGen)
  match gens.dropWhile other with
  | [] =>
    match (KvmMmuGen.new mmuValidGen).getPage balance entry created with
    | none => none
    | some (gen, ret) => some (gen :: gens, ret)
  | gen :: rest =>
    match gen.getPage balance entry created with
    | none => none
    | some (gen, ret) => some (gens.takeWhile other ++ gen :: rest, ret)

def kvmMmuGenZapPage (mmuValidGen : U64) (entry : Entry)
    (gens : List (KvmMmuGen δ)) : Option (List (KvmMmuGen δ) × Int) :=
  let other := fun gen : KvmMmuGen δ => decide (gen.mmuValidGen ≠ mmuValidGen)
  match gens.dropWhile other with
  | [] => some (gens, -1)
  | gen :: rest =>
    match gen.zapPage balance entry with
    | none => none
    | some (gen, ret) => some (gens.takeWhile other ++ (gen.toList ++ rest), ret)

inductive Event where
  | getPage (mmuValidGen : U64) (entry : Entry) (created : Bool)
  | zapPage (mmuValidGen : U64) (entry : Entry)

def step : Event → List (KvmMmuGen δ) → Option (List (KvmMmuGen δ))
  | .getPage mmuValidGen entry created, gens =>
    (kvmMmuGenGetPage balance mmuValidGen entry created gens).map Prod.fst
  | .zapPage mmuValidGen entry, gens =>
    (kvmMmuGenZapPage balance mmuValidGen entry gens).map Prod.fst

end Gen

end PerfProf.Kvmmmu
