import Mathlib.Data.List.Monad
import Mathlib.Logic.Function.Basic
import LearnedIndexFramework.Lib.Machine
import LearnedIndexFramework.Lib.Rounding

/-! LIPP+ as one thread sees it: the tree of `competitor/lippol`, its pool of recycled two-key
nodes and its epoch-based reclamation.  How its `double` and `long double` models round is a
parameter.  The version locks are left out: one thread always finds the slots of the live tree
unlocked. -/

namespace LearnedIndexFramework.Lippol

open Lib Function

inductive Fault
  /-- A failing `RT_ASSERT`, with its expression; it ends the process. -/
  | rtAssert (expr : String)
  | intOverflow
  | outOfBounds
  | uninitEntry
  /-- `remove` reads its variable `parent` before anything was assigned to it. -/
  | uninitParent
  /-- The stack of segments to build never runs empty. -/
  | diverge
  deriving DecidableEq, Repr

def rtAssert (cond : Prop) [Decidable cond] (expr : String) : Except Fault Unit :=
  if cond then .ok () else .error (.rtAssert expr)

structure Header (fp : Precision) where
  isTwo : Bool
  buildSize : ℤ
  size : ℤ
  fixed : Bool := false
  numInserts : ℤ := 0
  numInsertToData : ℤ := 0
  numItems : ℕ
  a : ℚ := 0
  b : ℚ := 0
  deriving DecidableEq

/-- A slot: `entry_type` 0, 2 or 1.  A node is a header with its slots, of which the first
`numItems` exist. -/
inductive Item (fp : Precision) (P : Type)
  | empty
  | data (key : ℕ) (value : P)
  | child (header : Header fp) (items : ℕ → Item fp P)

structure Node (fp : Precision) (P : Type) where
  header : Header fp
  items : ℕ → Item fp P

variable {fp : Precision} {P : Type}

def Node.toItem (node : Node fp P) : Item fp P := .child node.header node.items

def Item.isEmpty : Item fp P → Bool
  | .empty => true
  | _ => false

def Item.isData : Item fp P → Bool
  | .data _ _ => true
  | _ => false

def Header.predictDouble (h : Header fp) (key : ℕ) : ℚ :=
  fp.double (fp.longDouble (fp.longDouble (h.a * fp.longDouble key) + h.b))

/-- `PREDICT_POS`; the first bound is `std::numeric_limits<int>::max() / 2`. -/
def Header.predictPos (h : Header fp) (key : ℕ) : ℕ :=
  let v := h.predictDouble key
  if v > 1073741823 then h.numItems - 1
  else if v < 0 then 0
  else min (h.numItems - 1) (truncate v).toNat

def computeGapCount (size : ℕ) : ℕ :=
  if size ≥ 1000000 then 1 else if size ≥ 100000 then 2 else 5

def buildTreeNone : Node fp P where
  header := { isTwo := false, buildSize := 0, size := 0, numItems := 1 }
  items _ := .empty

/-- `Item.toNode` is only applied to slots that hold a child. -/
def Item.toNode : Item fp P → Node fp P
  | .child header items => { header, items }
  | _ => buildTreeNone

section Build

/-- The branch of `build_tree_two` for an empty pool. -/
def newTwo : Node fp P where
  header := { isTwo := true, buildSize := 2, size := 2, numItems := 8 }
  items _ := .empty

def placeData (h : Header fp) (items : ℕ → Item fp P) (key : ℕ) (value : P) :
    Except Fault (ℕ → Item fp P) := do
  let pos := h.predictPos key
  rtAssert (items pos).isEmpty "node->items[pos].entry_type == 0"
  return update items pos (.data key value)

/-- The pool `pending_two` is a stack; its top is the head of the list. -/
def takeTwo : List (Node fp P) → Node fp P × List (Node fp P)
  | [] => (newTwo, [])
  | node :: pendingTwo => (node, pendingTwo)

def Header.throughTwo (h : Header fp) (key1 key2 : ℕ) : Header fp :=
  let mid1Key := fp.longDouble key1
  let mid2Key := fp.longDouble key2
  let mid1Target := fp.double (h.numItems / 3 : ℕ)
  let mid2Target := fp.double (h.numItems * 2 / 3 : ℕ)
  let a := fp.double (fp.longDouble
    (fp.double (mid2Target - mid1Target) / fp.longDouble (mid2Key - mid1Key)))
  { h with a, b := fp.longDouble (mid1Target - fp.longDouble (a * mid1Key)) }

/-- A quotient is finite when nothing is divided by zero. -/
def assertFinite (divisor : ℚ) : Except Fault Unit :=
  rtAssert (divisor ≠ 0) "isfinite(node->model.a)"

def buildTreeTwo (key1 : ℕ) (value1 : P) (key2 : ℕ) (value2 : P) (pendingTwo : List (Node fp P)) :
    Except Fault (Node fp P × List (Node fp P)) := do
  let (key1, value1, key2, value2) :=
    if key1 > key2 then (key2, value2, key1, value1) else (key1, value1, key2, value2)
  rtAssert (key1 < key2) "key1 < key2"
  let (node, pendingTwo) := takeTwo pendingTwo
  assertFinite (fp.longDouble (fp.longDouble key2 - fp.longDouble key1))
  let header := node.header.throughTwo key1 key2
  let items ← placeData header node.items key1 value1
  let items ← placeData header items key2 value2
  return ({ header, items }, pendingTwo)

section Fmcd

variable (fp)

def fmcdUt (keys : List ℕ) (L D : ℕ) : ℚ :=
  let span := fp.longDouble
    (fp.longDouble (keys.getD (keys.length - 1 - D) 0) - fp.longDouble (keys.getD D 0))
  fp.double (fp.longDouble
    (fp.longDouble (span / fp.double ((L : ℚ) - 2)) + fp.double (1 / 1000000)))

/-- The inner loop, which moves `i` while the keys `D` apart are at least `Ut` apart; the
first argument bounds the number of rounds. -/
def fmcdAdvance (keys : List ℕ) (D : ℕ) (ut : ℚ) : ℕ → ℕ → ℕ
  | 0, i => i
  | n + 1, i =>
    if i + D < keys.length ∧ fp.double ((keys.getD (i + D) 0 : ℚ) - keys.getD i 0) ≥ ut then
      fmcdAdvance keys D ut n (i + 1)
    else i

def fmcdLoop (keys : List ℕ) (L : ℕ) : ℕ → ℕ → ℕ → ℚ → Except Fault (ℕ × ℚ)
  | 0, _, _, _ => .error .diverge
  | n + 1, i, D, ut =>
    if i < keys.length - 1 - D then
      let i := fmcdAdvance fp keys D ut keys.length i
      if i + D ≥ keys.length then .ok (D, ut)
      else
        let D := D + 1
        if D * 3 > keys.length then .ok (D, ut)
        else do
          rtAssert (D ≤ keys.length - 1 - D) "D <= size - 1 - D"
          fmcdLoop keys L n i D (fmcdUt fp keys L D)
    else .ok (D, ut)

def midModel (keys : List ℕ) (gap : ℕ) : Except Fault (ℚ × ℚ) := do
  let size := keys.length
  let mid1Pos := (size - 1) / 3
  let mid2Pos := (size - 1) * 2 / 3
  rtAssert (0 ≤ mid1Pos) "0 <= mid1_pos"
  rtAssert (mid1Pos < mid2Pos) "mid1_pos < mid2_pos"
  rtAssert (mid2Pos < size - 1) "mid2_pos < size - 1"
  let midKey (pos : ℕ) := fp.longDouble (fp.longDouble
    (fp.longDouble (keys.getD pos 0) + fp.longDouble (keys.getD (pos + 1) 0)) / 2)
  let midTarget (pos : ℕ) := fp.double (pos * (gap + 1) + (gap + 1) / 2 : ℕ)
  let divisor := fp.longDouble (midKey mid2Pos - midKey mid1Pos)
  assertFinite divisor
  let a := fp.double (fp.longDouble
    (fp.double (midTarget mid2Pos - midTarget mid1Pos) / divisor))
  return (a, fp.longDouble (midTarget mid1Pos - fp.longDouble (a * midKey mid1Pos)))

def fmcdModel (keys : List ℕ) (L D : ℕ) (ut : ℚ) : Except Fault (ℚ × ℚ) := do
  assertFinite ut
  let a := fp.double (1 / ut)
  let sum := fp.longDouble
    (fp.longDouble (keys.getD (keys.length - 1 - D) 0) + fp.longDouble (keys.getD D 0))
  return (a, fp.longDouble (fp.longDouble (L - fp.longDouble (a * sum)) / 2))

end Fmcd

/-- The header of a node over at least three keys.  `BUILD_LR_REMAIN` is 0, so nothing is added
to the intercept and to the number of slots. -/
def bulkHeader (keys : List ℕ) : Except Fault (Header fp) := do
  let size := keys.length
  let gap := computeGapCount size
  let L := size * (gap + 1)
  if 2 ^ 31 ≤ L then .error .intOverflow
  rtAssert (1 ≤ size - 1 - 1) "D <= size - 1 - D"
  let (D, ut) ← fmcdLoop fp keys L size 0 1 (fmcdUt fp keys L 1)
  let (a, b) ← (if D * 3 ≤ size then fmcdModel fp keys L D ut else midModel fp keys gap)
  rtAssert (a ≥ 0) "node->model.a >= 0"
  return {
    isTwo := false
    buildSize := size
    size := size
    fixed := size > 1000000
    numItems := L
    a, b }

def splitRuns (pos : ℕ → ℕ) : List (ℕ × P) → List (ℕ × List (ℕ × P))
  | [] => []
  | v :: vs =>
    match splitRuns pos vs with
    | [] => [(pos v.1, [v])]
    | (p, run) :: runs =>
      if pos v.1 = p then (p, v :: run) :: runs else (pos v.1, [v]) :: (p, run) :: runs

def buildRuns (build : List (ℕ × P) → List (Node fp P) → Except Fault (Node fp P × List (Node fp P))) :
    List (ℕ × List (ℕ × P)) → List (Node fp P) → Except Fault (List (ℕ × Item fp P) × List (Node fp P))
  | [], pendingTwo => .ok ([], pendingTwo)
  | (p, run) :: runs, pendingTwo => do
    let (slots, pendingTwo) ← buildRuns build runs pendingTwo
    match run with
    | [(key, value)] => return ((p, .data key value) :: slots, pendingTwo)
    | run =>
      let (node, pendingTwo) ← build run pendingTwo
      return ((p, node.toItem) :: slots, pendingTwo)

def fillSlots (slots : List (ℕ × Item fp P)) : ℕ → Item fp P :=
  slots.foldl (fun items slot => update items slot.1 slot.2) fun _ => .empty

/-- The loop of `build_tree_bulk_fmcd`, as a recursion over segments.  Every segment is shorter
than the one it comes from or is built for ever, so the first argument can count down from the
length. -/
def buildSegment : ℕ → List (ℕ × P) → List (Node fp P) → Except Fault (Node fp P × List (Node fp P))
  | 0, _, _ => .error .diverge
  | n + 1, vs, pendingTwo => do
    rtAssert (vs.length ≥ 2) "end - begin >= 2"
    match vs with
    | [(key1, value1), (key2, value2)] => buildTreeTwo key1 value1 key2 value2 pendingTwo
    | vs =>
      let header ← bulkHeader (vs.map Prod.fst)
      let (slots, pendingTwo) ←
        buildRuns (buildSegment n) (splitRuns header.predictPos vs) pendingTwo
      return ({ header, items := fillSlots slots }, pendingTwo)

def buildTreeBulk (vs : List (ℕ × P)) (pendingTwo : List (Node fp P)) :
    Except Fault (Node fp P × List (Node fp P)) := do
  rtAssert (vs.length > 1) "_size > 1"
  buildSegment vs.length vs pendingTwo

end Build

section Destroy

def recycle (node : Node fp P) : Node fp P where
  header := { node.header with size := 2, numInserts := 0, numInsertToData := 0 }
  items _ := .empty

def assertTwo (h : Header fp) : Except Fault Unit := do
  if h.isTwo then
    rtAssert (h.buildSize = 2) "node->build_size == 2"
    rtAssert (h.numItems = 8) "node->num_items == 8"

/-- `destroy_tree`; children wait on a stack, so the last one is destroyed first. -/
def Item.destroy : Item fp P → List (Node fp P) → Except Fault (List (Node fp P))
  | .child header items, pendingTwo => do
    assertTwo header
    let pendingTwo := if header.isTwo then recycle { header, items } :: pendingTwo else pendingTwo
    (List.range header.numItems).foldrM (fun i pendingTwo => (items i).destroy pendingTwo) pendingTwo
  | _, pendingTwo => .ok pendingTwo

end Destroy

section Scan

def writeEntry (esize : ℤ) (out : ℤ → Option (ℕ × P)) (pos : ℤ) (v : ℕ × P) :
    Except Fault (ℤ → Option (ℕ × P)) :=
  if 0 ≤ pos ∧ pos < esize then .ok (update out pos (some v)) else .error .outOfBounds

/-- The slots of one node: its data are written from `begin` on, and room for as many entries
as a child's `size` says is left for each child.  Returns the end position and the children. -/
def scanSlots (esize : ℤ) (items : ℕ → Item fp P) :
    List ℕ → ℤ → (ℤ → Option (ℕ × P)) → Except Fault (ℤ × (ℤ → Option (ℕ × P)) × List (ℤ × ℕ))
  | [], start, out => .ok (start, out, [])
  | i :: is, start, out =>
    match items i with
    | .empty => scanSlots esize items is start out
    | .data key value => do
      let out ← writeEntry esize out start (key, value)
      scanSlots esize items is (start + 1) out
    | .child header _ => do
      let (stop, out, segments) ← scanSlots esize items is (start + header.size) out
      return (stop, out, (start, i) :: segments)

/-- The collecting loop of `scan_and_destory_tree` below one node, with the nodes it schedules
for deletion in order. -/
def Item.scan (esize : ℤ) : Item fp P → ℤ → (ℤ → Option (ℕ × P)) →
    Except Fault ((ℤ → Option (ℕ × P)) × List (Node fp P))
  | .child header items, start, out => do
    let (stop, out, segments) ← scanSlots esize items (List.range header.numItems) start out
    rtAssert (start + header.size = stop) "false"
    assertTwo header
    let node : Node fp P := {
      header := if header.isTwo then
        { header with size := 2, numInserts := 0, numInsertToData := 0 } else header
      items }
    segments.foldrM (fun segment state => do
      let (out, nodes) ← (items segment.2).scan esize segment.1 state.1
      return (out, state.2 ++ nodes)) (out, [node])
  | _, _, out => .ok (out, [])

def readEntries (out : ℤ → Option (ℕ × P)) : ℕ → Except Fault (List (ℕ × P))
  | 0 => .ok []
  | n + 1 => do
    let vs ← readEntries out n
    match out n with
    | some v => return vs ++ [v]
    | none => .error .uninitEntry

def scanAndDestoryTree (node : Node fp P) : Except Fault (List (ℕ × P) × List (Node fp P)) := do
  let (out, nodes) ← node.toItem.scan node.header.size 0 fun _ => none
  let vs ← readEntries out node.header.size.toNat
  return (vs, nodes)

end Scan

/-- Epoch-based reclamation with one thread.  The epoch number 3 of a thread that accessed none
is `none`. -/
structure Ebr (fp : Precision) (P : Type) where
  currentEpoch : Fin 3 := 0
  previouslyAccessedEpoch : Option (Fin 3) := none
  threadWantsToAdvance : Bool := false
  freeLists : Fin 3 → List (Node fp P) := fun _ => []

structure Lipp (fp : Precision) (P : Type) where
  root : Node fp P
  pendingTwo : List (Node fp P)
  ebr : Ebr fp P

section Epoch

/-- `freeForEpoch`: two-key nodes go back to the pool, other nodes are freed. -/
def freeForEpoch (nodes : List (Node fp P)) (pendingTwo : List (Node fp P)) : List (Node fp P) :=
  nodes.foldl (fun pendingTwo node =>
    if node.header.isTwo then recycle node :: pendingTwo else pendingTwo) pendingTwo

/-- The constructor of `EpochGuard`; it returns the local epoch.  No thread is in the previous
epoch, so an epoch that wants to advance does. -/
def Lipp.enter (t : Lipp fp P) : Lipp fp P × Fin 3 :=
  let epoch := t.ebr.currentEpoch
  let t :=
    if t.ebr.previouslyAccessedEpoch = some epoch then t
    else { t with
      pendingTwo := freeForEpoch (t.ebr.freeLists epoch) t.pendingTwo
      ebr := { t.ebr with
        freeLists := update t.ebr.freeLists epoch []
        threadWantsToAdvance := false
        previouslyAccessedEpoch := some epoch } }
  let t :=
    if t.ebr.threadWantsToAdvance then { t with ebr := { t.ebr with currentEpoch := epoch + 1 } }
    else t
  (t, epoch)

def nextEpoch (epoch : Fin 3) : Fin 3 := epoch + 1

def previousEpoch (epoch : Fin 3) : Fin 3 := epoch - 1

def Ebr.scheduleForDeletion (epoch : Fin 3) (ebr : Ebr fp P) (node : Node fp P) : Ebr fp P :=
  let currentFreeList := ebr.freeLists epoch ++ [node]
  { ebr with
    freeLists := update ebr.freeLists epoch currentFreeList
    threadWantsToAdvance := currentFreeList.length % 64 = 0 }

def Lipp.safeDeleteNodes (t : Lipp fp P) (epoch : Fin 3) (nodes : List (Node fp P)) : Lipp fp P :=
  { t with ebr := nodes.foldl (Ebr.scheduleForDeletion epoch) t.ebr }

end Epoch

section Calls

def Item.at (key : ℕ) : Item fp P → Except Fault (Option P)
  | .empty => .ok none
  | .data k value => do
    rtAssert (k = key) "node->items[pos].comp.data.key == key"
    return some value
  | .child header items => (items (header.predictPos key)).at key

def Lipp.at (t : Lipp fp P) (key : ℕ) : Except Fault (Option P × Lipp fp P) := do
  let (t, _) := t.enter
  let value ← t.root.toItem.at key
  return (value, t)

/-- The counters of a node on the path of an insert.  `size` counts entries and does not wrap:
leaving the range of `int` is a fault; the two statistics wrap. -/
def Header.bump (h : Header fp) (insertToData : ℤ) : Except Fault (Header fp) :=
  if h.size + 1 < 2 ^ 31 then .ok { h with
    numInsertToData := wrapInt (h.numInsertToData + insertToData)
    numInserts := wrapInt (h.numInserts + 1)
    size := h.size + 1 }
  else .error .intOverflow

/-- The descent of `insert_tree` and its first loop over the path: the new slot, what
`insert_to_data` is, the length of the path and the pool. -/
def Item.insertAt (key : ℕ) (value : P) : Item fp P → ℕ → List (Node fp P) →
    Except Fault (Item fp P × ℤ × ℕ × List (Node fp P))
  | .empty, _, pendingTwo => .ok (.data key value, 0, 0, pendingTwo)
  | .data k v, _, pendingTwo => do
    let (node, pendingTwo) ← buildTreeTwo key value k v pendingTwo
    return (node.toItem, 1, 0, pendingTwo)
  | .child header items, depth, pendingTwo => do
    rtAssert (depth < 128) "path_size < MAX_DEPTH"
    let pos := header.predictPos key
    let (item, insertToData, pathSize, pendingTwo) ←
      (items pos).insertAt key value (depth + 1) pendingTwo
    let header ← header.bump insertToData
    return (.child header (update items pos item), insertToData, pathSize + 1, pendingTwo)

def Header.needRebuild (h : Header fp) : Except Fault Bool :=
  if h.fixed = false ∧ h.size ≥ h.buildSize * 2 ∧ h.size ≥ 64 then
    if -2 ^ 31 ≤ h.numInsertToData * 10 ∧ h.numInsertToData * 10 < 2 ^ 31 then
      .ok (h.numInsertToData * 10 ≥ h.numInserts)
    else .error .intOverflow
  else .ok false

/-- The second loop of `insert_tree` over the path: the first node that needs it is rebuilt and
hung into its parent.  Returns also the nodes scheduled for deletion and the pool. -/
def rebuildPath (key : ℕ) : ℕ → Item fp P → List (Node fp P) →
    Except Fault (Item fp P × List (Node fp P) × List (Node fp P))
  | n + 1, .child header items, pendingTwo => do
    if ← header.needRebuild then
      let (vs, nodes) ← scanAndDestoryTree { header, items }
      let (node, pendingTwo) ← buildTreeBulk vs pendingTwo
      return (node.toItem, nodes, pendingTwo)
    else
      let pos := header.predictPos key
      let (item, nodes, pendingTwo) ← rebuildPath key n (items pos) pendingTwo
      return (.child header (update items pos item), nodes, pendingTwo)
  | _, item, pendingTwo => .ok (item, [], pendingTwo)

def Lipp.insert (t : Lipp fp P) (key : ℕ) (value : P) : Except Fault (Lipp fp P) := do
  let (t, epoch) := t.enter
  let (root, _, pathSize, pendingTwo) ← t.root.toItem.insertAt key value 0 t.pendingTwo
  let (root, nodes, pendingTwo) ← rebuildPath key pathSize root pendingTwo
  return { t with root := root.toNode, pendingTwo }.safeDeleteNodes epoch nodes

/-- What a removal leaves of a slot: the slot, whether the data was in this node and it is now
empty, and the nodes scheduled for deletion below. -/
structure Removal (fp : Precision) (P : Type) where
  item : Item fp P
  emptied : Bool
  nodes : List (Node fp P)

/-- The descent of `remove`; `none` when it meets an empty slot.  The key of the data it meets is
not looked at. -/
def Item.removeAt (key : ℕ) : Item fp P → ℕ → Except Fault (Option (Removal fp P))
  | .empty, _ => .ok none
  | .data _ _, _ => .ok (some { item := .empty, emptied := false, nodes := [] })
  | .child header items, depth => do
    rtAssert (depth < 128) "path_size < MAX_DEPTH"
    let pos := header.predictPos key
    match ← (items pos).removeAt key (depth + 1) with
    | none => return none
    | some r =>
      let header := { header with size := header.size - 1 }
      return some {
        item := .child header (update items pos (if r.emptied then .empty else r.item))
        emptied := (items pos).isData && header.size == 0
        nodes := if r.emptied then r.nodes ++ [r.item.toNode] else r.nodes }

def Lipp.remove (t : Lipp fp P) (key : ℕ) : Except Fault (Bool × Lipp fp P) := do
  let (t, epoch) := t.enter
  match ← t.root.toItem.removeAt key 0 with
  | none => return (false, t)
  | some r =>
    if r.emptied then .error .uninitParent
    else return (true, { t with root := r.item.toNode }.safeDeleteNodes epoch r.nodes)

def Item.updateAt (key : ℕ) (value : P) : Item fp P → Option (Item fp P)
  | .empty => none
  | .data k _ => some (.data k value)
  | .child header items =>
    let pos := header.predictPos key
    ((items pos).updateAt key value).map fun item => .child header (Function.update items pos item)

def Lipp.update (t : Lipp fp P) (key : ℕ) (value : P) : Bool × Lipp fp P :=
  let (t, _) := t.enter
  match t.root.toItem.updateAt key value with
  | none => (false, t)
  | some root => (true, { t with root := root.toNode })

end Calls

section Load

/-- The constructor fills the pool with ten million nodes built for the keys 0 and 1. -/
def Lipp.construct : Lipp fp P where
  root := buildTreeNone
  pendingTwo := List.replicate 10000000 {
    header := (newTwo : Node fp P).header.throughTwo 0 1
    items := fun _ => .empty }
  ebr := {}

def increasing : List (ℕ × P) → Bool
  | v :: w :: vs => decide (w.1 > v.1) && increasing (w :: vs)
  | _ => true

def Lipp.destroyRoot (t : Lipp fp P) : Except Fault (Lipp fp P) := do
  let pendingTwo ← t.root.toItem.destroy t.pendingTwo
  return { t with pendingTwo }

def Lipp.bulkLoad (t : Lipp fp P) (vs : List (ℕ × P)) (numKeys : ℤ) : Except Fault (Lipp fp P) :=
  if numKeys = 0 then do
    let t ← t.destroyRoot
    return { t with root := buildTreeNone }
  else if numKeys = 1 then do
    let t ← t.destroyRoot
    match vs with
    | (key, value) :: _ => Lipp.insert { t with root := buildTreeNone } key value
    | [] => .error .outOfBounds
  else if numKeys = 2 then do
    let t ← t.destroyRoot
    match vs with
    | (key1, value1) :: (key2, value2) :: _ =>
      let (root, pendingTwo) ← buildTreeTwo key1 value1 key2 value2 t.pendingTwo
      return { t with root, pendingTwo }
    | _ => .error .outOfBounds
  else do
    rtAssert (numKeys > 2) "num_keys > 2"
    let vs := vs.take numKeys.toNat
    rtAssert (increasing vs) "vs[i].first > vs[i - 1].first"
    let t ← t.destroyRoot
    let (root, pendingTwo) ← buildTreeBulk vs t.pendingTwo
    return { t with root, pendingTwo }

end Load

inductive Call (P : Type)
  | put (key : ℕ) (value : P)
  | get (key : ℕ)
  | update (key : ℕ) (value : P)
  | remove (key : ℕ)

/-- What a call returns: its `bool`, and the value a successful `get` stores. -/
structure Reply (P : Type) where
  ok : Bool
  value : Option P := none

def Lipp.call (t : Lipp fp P) : Call P → Except Fault (Reply P × Lipp fp P)
  | .put key value => do
    let t ← t.insert key value
    return ({ ok := true }, t)
  | .get key => do
    let (value, t) ← t.at key
    return ({ ok := value.isSome, value }, t)
  | .update key value =>
    let (ok, t) := t.update key value
    return ({ ok }, t)
  | .remove key => do
    let (ok, t) ← t.remove key
    return ({ ok }, t)

/-- `LIPPOLInterface::bulk_load` narrows the number of keys to `int`. -/
def Lipp.load (vs : List (ℕ × P)) : Except Fault (Lipp fp P) :=
  Lipp.construct.bulkLoad vs (wrapInt vs.length)

end LearnedIndexFramework.Lippol
