import PerfProf.Sql.Boundary

namespace PerfProf.Sql

universe u

variable {ε : Type u}

/-- The events with one value of the index field, in the order of arrival. -/
structure IndexNode (ε : Type u) where
  value : Value
  eventList : List ε

def IndexNode.addTail (event : ε) (node : IndexNode ε) : IndexNode ε :=
  { node with eventList := node.eventList ++ [event] }

/-- The functions that a scan calls: `perf_tp_field`, whether
`sqlite3_strglob` finds a match, and `qsort` with the comparison of values. -/
structure Library (ε : Type u) where
  perfTpField : ε → Nat → Value
  strglob : List Nat → List Nat → Bool
  qsort : List OneOp → List OneOp
  qsort_perm : ∀ table, (qsort table).Perm table
  qsort_sorted : ∀ table, (qsort table).Pairwise (·.value ≤ ·.value)

structure TpPrivate (ε : Type u) where
  haveIndex : Bool
  indexField : Nat
  eventList : List ε
  indexTree : List (IndexNode ε)

def getIndexNode (value : Value) (use : IndexNode ε → IndexNode ε) :
    List (IndexNode ε) → List (IndexNode ε)
  | [] => [use ⟨value, []⟩]
  | node :: rest =>
    if value < node.value then use ⟨value, []⟩ :: node :: rest
    else if node.value < value then node :: getIndexNode value use rest
    else use node :: rest

def sqlTpMemSample (lib : Library ε) (priv : TpPrivate ε) (event : ε) :
    TpPrivate ε :=
  { priv with
    eventList := priv.eventList ++ [event]
    indexTree :=
      if priv.haveIndex then
        getIndexNode (lib.perfTpField event priv.indexField) (·.addTail event) priv.indexTree
      else priv.indexTree }

def TpPrivate.store (lib : Library ε) (haveIndex : Bool) (indexField : Nat)
    (events : List ε) : TpPrivate ε :=
  events.foldl (sqlTpMemSample lib) ⟨haveIndex, indexField, [], []⟩

def rbFirst (tree : List (IndexNode ε)) : Option Nat :=
  if tree.isEmpty then none else some 0

def rbNext (tree : List (IndexNode ε)) (index : Nat) : Option Nat :=
  if index + 1 < tree.length then some (index + 1) else none

def rbPrev : Nat → Option Nat
  | 0 => none
  | index + 1 => some index

def rbLast (tree : List (IndexNode ε)) : Option Nat :=
  rbPrev tree.length

/-- The search path passes the node of the value, or ends between the last
smaller and the first larger one. -/
def findIndexNode (tree : List (IndexNode ε)) (op : Op) (value : Value) :
    Option Nat :=
  let found := tree.findIdx? (·.value = value)
  let left := rbPrev (tree.countP (·.value < value))
  let right := tree.findIdx? (value < ·.value)
  match op with
  | .eq | .ne => found
  | .gt => match found with
      | some index => rbNext tree index
      | none => right
  | .le => match found with
      | some index => some index
      | none => left
  | .lt => match found with
      | some index => rbPrev index
      | none => left
  | .ge => match found with
      | some index => some index
      | none => right
  | .glob => none

/-- The plan made by `xBestIndex`, with the values bound to its constraints. -/
structure IndexInfo where
  opTable : List OneOp
  orderBy : Bool
  desc : Bool

/-- A position in a circular list is the event there, `none` for the list head,
and the events up to the head again. -/
structure Cursor (ε : Type u) where
  filterOps : List OneOp
  opIndex : List OneOp
  scanList : Bool
  curr : Option ε
  rest : List ε
  left : Boundary
  right : Boundary
  indexDone : Bool
  leftmost : Option Nat
  rightmost : Option Nat

inductive IndexResult where
  | done
  | cont
  | allNode
  deriving DecidableEq, Repr

def segmentNodes (tree : List (IndexNode ε)) (left right : Boundary) :
    Option Nat × Option Nat :=
  (if left.valid then findIndexNode tree left.op left.value else rbFirst tree,
    if right.valid then findIndexNode tree right.op right.value
    else rbLast tree)

def hasNodes (tree : List (IndexNode ε)) (leftmost rightmost : Option Nat) :
    Bool :=
  match leftmost.bind (tree[·]?), rightmost.bind (tree[·]?) with
  | some first, some last => opHolds first.value .le last.value
  | _, _ => false

def nextWindow (desc : Bool) (left right : Boundary) : Boundary × Boundary :=
  if desc then
    ({ left with valid := false },
      { left with op := if left.op = .gt then .le else .lt })
  else
    ({ right with op := if right.op = .lt then .ge else .gt },
      { right with valid := false })

def takeSegment (tree : List (IndexNode ε)) (desc : Bool)
    (left right : Boundary) (cursor : Cursor ε) : Cursor ε :=
  let nodes := segmentNodes tree left right
  let window := nextWindow desc left right
  { cursor with
    left := window.1
    right := window.2
    leftmost := nodes.1
    rightmost := nodes.2
    indexDone := !window.1.valid && !window.2.valid }

def perfTpDoIndex (tree : List (IndexNode ε)) (info : IndexInfo) :
    Nat → Cursor ε → Option (IndexResult × Cursor ε)
  | 0, _ => none
  | fuel + 1, cursor =>
    if tree.isEmpty || cursor.indexDone then some (.done, cursor)
    else
      match queryOpBoundary cursor.opIndex info.desc cursor.left cursor.right with
      | none => some (.done, cursor)
      | some (left, right) =>
        if !info.orderBy && !left.valid && !right.valid then
          some (.allNode, { cursor with left := left, right := right })
        else
          let next := takeSegment tree info.desc left right cursor
          if hasNodes tree next.leftmost next.rightmost then
            some (.cont, next)
          else perfTpDoIndex tree info fuel next

def openNode (tree : List (IndexNode ε)) (desc : Bool) (cursor : Cursor ε) :
    Cursor ε :=
  match (if desc then cursor.rightmost else cursor.leftmost).bind (tree[·]?) with
  | some ⟨_, event :: rest⟩ => { cursor with curr := some event, rest := rest }
  | _ => { cursor with curr := none, rest := [] }

def nextNode (tree : List (IndexNode ε)) (desc : Bool) (cursor : Cursor ε) :
    Cursor ε :=
  if desc then
    openNode tree true { cursor with rightmost := cursor.rightmost.bind rbPrev }
  else
    openNode tree false { cursor with leftmost := cursor.leftmost.bind (rbNext tree) }

/-- The first part of the loop of `xNext`: the following event, before it is
checked. -/
def followingEvent (tree : List (IndexNode ε)) (info : IndexInfo) (fuel : Nat)
    (cursor : Cursor ε) : Option (Cursor ε) :=
  match cursor.rest with
  | event :: rest => some { cursor with curr := some event, rest := rest }
  | [] =>
    if cursor.scanList then some { cursor with curr := none }
    else if cursor.leftmost ≠ cursor.rightmost then
      some (nextNode tree info.desc cursor)
    else
      match perfTpDoIndex tree info fuel cursor with
      | none => none
      | some (.done, cursor) => some { cursor with curr := none }
      | some (_, cursor) => some (openNode tree info.desc cursor)

def filterHolds (lib : Library ε) (event : ε) (one : OneOp) : Bool :=
  match one.op, lib.perfTpField event one.field, one.value with
  | .glob, .text value, .text pattern => lib.strglob pattern value
  | .glob, _, _ => false
  | op, value, opValue => opHolds value op opValue

def perfTpXNext (lib : Library ε) (tree : List (IndexNode ε))
    (info : IndexInfo) : Nat → Cursor ε → Option (Cursor ε)
  | 0, _ => none
  | fuel + 1, cursor =>
    match followingEvent tree info fuel cursor with
    | none => none
    | some next =>
      match next.curr with
      | none => some next
      | some event =>
        if next.filterOps.isEmpty || next.filterOps.all (filterHolds lib event) then some next
        else perfTpXNext lib tree info fuel next

/-- Whether `xFilter` puts a constraint into `op_index`. -/
def isIndexOp (priv : TpPrivate ε) (one : OneOp) : Bool :=
  priv.haveIndex && one.field = priv.indexField && one.op ≠ .glob

/-- The part of `xFilter` in front of `perf_tp_do_filter`.  The constraints on
the index are filled in from the end of the table. -/
def resetCursor (lib : Library ε) (priv : TpPrivate ε) (info : IndexInfo) :
    Cursor ε where
  filterOps := info.opTable.filter (!isIndexOp priv ·)
  opIndex := lib.qsort (info.opTable.filter (isIndexOp priv)).reverse
  scanList := true
  curr := none
  rest := priv.eventList
  left := ⟨.int 0, .eq, false⟩
  right := ⟨.int 0, .eq, false⟩
  indexDone := false
  leftmost := none
  rightmost := none

def enterSegment (tree : List (IndexNode ε)) (desc : Bool) (cursor : Cursor ε) :
    Cursor ε :=
  let node := (if desc then cursor.rightmost else cursor.leftmost).bind (tree[·]?)
  { cursor with
    scanList := false
    curr := none
    rest := (node.map IndexNode.eventList).getD [] }

/-- The cursor stays on the whole list, or moves in front of the first node, or
has nothing to visit (`start` is `NULL`). -/
def perfTpDoFilter (priv : TpPrivate ε) (info : IndexInfo) (fuel : Nat)
    (cursor : Cursor ε) : Option (Option (Cursor ε)) :=
  if !priv.haveIndex || (!info.orderBy && cursor.opIndex.isEmpty) then
    some (some cursor)
  else
    match perfTpDoIndex priv.indexTree info fuel cursor with
    | none => none
    | some (.done, _) => some none
    | some (.allNode, _) => some (some cursor)
    | some (.cont, next) =>
      if !info.orderBy && next.leftmost = rbFirst priv.indexTree &&
          next.rightmost = rbLast priv.indexTree then some (some cursor)
      else some (some (enterSegment priv.indexTree info.desc next))

def perfTpXFilter (lib : Library ε) (priv : TpPrivate ε) (info : IndexInfo)
    (fuel : Nat) : Option (Cursor ε) :=
  let cursor := resetCursor lib priv info
  match perfTpDoFilter priv info fuel cursor with
  | none => none
  | some none => some cursor
  | some (some cursor) => perfTpXNext lib priv.indexTree info fuel cursor

/-- SQLite's loop: read the row, `xNext`, until `xEof` finds `curr` at the list
head. -/
def visitRows (lib : Library ε) (priv : TpPrivate ε) (info : IndexInfo) :
    Nat → Cursor ε → Option (List ε)
  | 0, _ => none
  | fuel + 1, cursor =>
    match cursor.curr with
    | none => some []
    | some event =>
      match perfTpXNext lib priv.indexTree info fuel cursor with
      | none => none
      | some next => (visitRows lib priv info fuel next).map (event :: ·)

def scan (lib : Library ε) (priv : TpPrivate ε) (info : IndexInfo)
    (fuel : Nat) : Option (List ε) :=
  (perfTpXFilter lib priv info fuel).bind (visitRows lib priv info fuel)

end PerfProf.Sql
