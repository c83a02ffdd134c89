import LearnedIndexFramework.Alexol.DataNode
import Mathlib.Data.Nat.Log
import Mathlib.Logic.Function.Basic

/-! The concurrent ALEX above its data nodes, in one thread: the pointers from the superroot down,
the links between the data nodes, and the paths that put new nodes in the place of old ones. -/

namespace LearnedIndexFramework.Alexol

open Lib Function

variable {K α : Type}

abbrev Addr := ℕ

/-- `rounded <= prediction` or not, for a prediction that is close to a whole number. -/
inductive Side
  | left | right
  deriving DecidableEq, Repr

/-- What a model computes in floating point, arbitrary here. -/
structure LinearModel (K : Type) where
  predictDouble : K → ℚ
  near : K → Option Side

namespace LinearModel

def predict (m : LinearModel K) (key : K) : ℤ :=
  (m.predictDouble key).num.tdiv (m.predictDouble key).den

def expand (m : LinearModel K) (factor : ℕ) (near : K → Option Side) : LinearModel K where
  predictDouble key := m.predictDouble key * factor
  near

end LinearModel

structure Limits (K : Type) where
  maxAbove : K → Bool
  minBelow : K → Bool

/-- The nodes, field by field.  A child pointer is `none` until it is written. -/
structure Heap (K : Type) where
  fresh : Addr
  isLeaf : Addr → Bool
  localDepth : Addr → ℕ
  level : Addr → ℤ
  model : Addr → LinearModel K
  numChildren : Addr → ℕ
  children : Addr → ℕ → Option Addr
  nextLeaf : Addr → Option Addr
  prevLeaf : Addr → Option Addr
  limits : Addr → Limits K
  locked : Addr → Bool

namespace Heap

variable (h : Heap K)

def child (a : Addr) (i : ℕ) : Option Addr := if i < h.numChildren a then h.children a i else none

def bucketID (a : Addr) (key : K) : ℕ :=
  (min (max ((h.model a).predict key) 0) ((h.numChildren a : ℤ) - 1)).toNat

/-- `1 << (log_2_round_down(parent->num_children_) - child->local_depth_)` -/
def repeats (parent child : Addr) : ℕ := 2 ^ (Nat.log2 (h.numChildren parent) - h.localDepth child)

def startBucketID (parent child : Addr) (bucketID : ℕ) : ℕ :=
  bucketID - bucketID % h.repeats parent child

/-- The correction of `get_leaf` at the data node below a model node -/
def sibling (key : K) (a leaf : Addr) : Addr :=
  match (h.model a).near key with
  | some .left =>
    match h.prevLeaf leaf with
    | some prev => if (h.limits prev).maxAbove key then prev else leaf
    | none => leaf
  | some .right =>
    match h.nextLeaf leaf with
    | some next => if (h.limits next).minBelow key then next else leaf
    | none => leaf
  | none => leaf

/-- The loop of `get_leaf`.  There are no more steps than nodes. -/
def descend (key : K) : ℕ → Addr → Option Addr
  | 0, _ => none
  | fuel + 1, a => do
    let cur ← h.child a (h.bucketID a key)
    if h.isLeaf cur then return h.sibling key a cur else descend key fuel cur

def outermost (bucket : Addr → ℕ) : ℕ → Addr → Option Addr
  | 0, _ => none
  | fuel + 1, a =>
    if h.isLeaf a then some a else (h.child a (bucket a)).bind fun cur => outermost bucket fuel cur

end Heap

structure Index (K : Type) extends Heap K where
  rootNode : Addr
  superroot : Addr
  scheduled : List Addr
  maxFanout : ℕ
  numKeys : ℤ
  insertCounter : ℕ
  eraseCounter : ℕ

inductive Stop
  | retries | undefined
  deriving DecidableEq, Repr

def orStop (stop : Stop) : Option α → Except Stop α
  | some a => .ok a
  | none => .error stop

/-! ### Lookup -/

namespace Index

variable (s : Index K)

def getLeaf (key : K) : Option Addr :=
  if s.isLeaf s.rootNode then some s.rootNode else s.descend key s.fresh s.rootNode

def firstDataNode : Option Addr := s.outermost (fun _ => 0) s.fresh s.rootNode

def lastDataNode : Option Addr := s.outermost (fun a => s.numChildren a - 1) s.fresh s.rootNode

end Index

abbrev TraversalPath := List (Addr × ℕ)

namespace Heap

variable (h : Heap K)

/-- The loop of `lock_and_correct_traversal_path` down to a data node. -/
def pushSpine (bucket : Addr → ℕ) : ℕ → Addr → TraversalPath → Option TraversalPath
  | 0, _, _ => none
  | fuel + 1, cur, path =>
    if h.isLeaf cur then some path
    else (h.child cur (bucket cur)).bind fun next =>
      pushSpine bucket fuel next ((cur, bucket cur) :: path)

def popLeft : Addr → TraversalPath → Option (Addr × TraversalPath)
  | _, [] => none
  | below, (parent, bucketID) :: path =>
    let start := h.startBucketID parent below bucketID
    if start = 0 then popLeft parent path
    else (h.child parent (start - 1)).map fun cur => (cur, (parent, bucketID) :: path)

def popRight : Addr → TraversalPath → Option (Addr × TraversalPath)
  | _, [] => none
  | below, (parent, bucketID) :: path =>
    let stop := h.startBucketID parent below bucketID + h.repeats parent below
    if stop = h.numChildren parent then popRight parent path
    else (h.child parent stop).map fun cur => (cur, (parent, bucketID) :: path)

def correctTraversalPath (leaf : Addr) : Side → TraversalPath → Option TraversalPath
  | _, [] => none
  | .left, (parent, bucketID) :: path =>
    let start := h.startBucketID parent leaf bucketID
    if start = 0 then do
      let r ← h.popLeft parent path
      h.pushSpine (fun a => h.numChildren a - 1) h.fresh r.1 r.2
    else some ((parent, start - 1) :: path)
  | .right, (parent, bucketID) :: path =>
    let stop := h.startBucketID parent leaf bucketID + h.repeats parent leaf
    if stop = h.numChildren parent then do
      let r ← h.popRight parent path
      h.pushSpine (fun _ => 0) h.fresh r.1 r.2
    else some ((parent, stop) :: path)

def lockAndCorrectTraversalPath (leaf childNode : Addr) (side : Side) (path : TraversalPath) :
    Option (Addr × ℕ) := do
  let path ← h.correctTraversalPath leaf side path
  path.find? fun tn => h.child tn.1 tn.2 = some childNode

/-- Whether `lock_parent_node` corrects the path at a data node that is not the child. -/
def correction (key : K) (a leaf : Addr) : Option Side :=
  match (h.model a).near key with
  | some .left => (h.prevLeaf leaf).bind fun prev =>
    if (h.limits prev).maxAbove key then some .left else none
  | some .right => (h.nextLeaf leaf).bind fun next =>
    if (h.limits next).minBelow key then some .right else none
  | none => none

def findParent (key : K) (childNode : Addr) : ℕ → Addr → TraversalPath → Option (Addr × ℕ)
  | 0, _, _ => none
  | fuel + 1, a, path => do
    let bucketID := h.bucketID a key
    let cur ← h.child a bucketID
    if cur = childNode then return (a, bucketID)
    if h.isLeaf cur then
      let side ← h.correction key a cur
      h.lockAndCorrectTraversalPath cur childNode side ((a, bucketID) :: path)
    else findParent key childNode fuel cur ((a, bucketID) :: path)

end Heap

namespace Index

variable (s : Index K)

def lockParentNode (key : K) (childNode : Addr) : Option (Addr × ℕ) :=
  if s.rootNode = childNode then
    if s.child s.superroot 0 = some childNode then some (s.superroot, 0) else none
  else if s.isLeaf s.rootNode then none
  else s.findParent key childNode s.fresh s.rootNode [(s.superroot, 0)]

def updateSuperrootPointer : Index K :=
  { s with
    children := update s.children s.superroot (update (s.children s.superroot) 0 (some s.rootNode))
    level := update s.level s.superroot (s.level s.rootNode - 1) }

def safeDeleteNode (a : Addr) : Index K := { s with scheduled := a :: s.scheduled }

end Index

/-! ### Replacement -/

namespace Heap

variable (h : Heap K)

def setChildren (parent : Addr) (start n : ℕ) (node : Addr) : Heap K :=
  { h with
    children := update h.children parent fun i =>
      if start ≤ i ∧ i < start + n then some node else h.children parent i }

def linkDataNodes (oldLeaf leftLeaf rightLeaf : Addr) : Heap K :=
  let h := match h.prevLeaf oldLeaf with
    | some prev => { h with
        nextLeaf := update h.nextLeaf prev (some leftLeaf)
        prevLeaf := update h.prevLeaf leftLeaf (some prev) }
    | none => h
  match h.nextLeaf oldLeaf with
  | some next => { h with
      nextLeaf := update h.nextLeaf rightLeaf (some next)
      prevLeaf := update h.prevLeaf next (some rightLeaf) }
  | none => h

def linkResizingDataNodes (oldLeaf newLeaf : Addr) : Heap K :=
  h.linkDataNodes oldLeaf newLeaf newLeaf

def newFromExisting (oldNode : Addr) : Heap K :=
  { h with
    fresh := h.fresh + 1
    isLeaf := update h.isLeaf h.fresh (h.isLeaf oldNode)
    localDepth := update h.localDepth h.fresh (h.localDepth oldNode)
    level := update h.level h.fresh (h.level oldNode)
    nextLeaf := update h.nextLeaf h.fresh (h.nextLeaf oldNode)
    prevLeaf := update h.prevLeaf h.fresh (h.prevLeaf oldNode)
    limits := update h.limits h.fresh (h.limits oldNode)
    locked := update h.locked h.fresh (h.locked oldNode) }

def releaseLock (a : Addr) : Heap K := { h with locked := update h.locked a false }

end Heap

/-- What `insert` does for a resize or a new model, and `erase` for a contraction.  The cached root
is not written. -/
def Index.replaceDataNode (s : Index K) (key : K) (leaf : Addr) : Except Stop (Index K) := do
  let (parent, bucketID) ← orStop .retries (s.lockParentNode key leaf)
  let node := s.fresh
  let start := s.startBucketID parent leaf bucketID
  let h := s.newFromExisting leaf
  let h := h.setChildren parent start (s.repeats parent leaf) node
  let h := (h.linkResizingDataNodes leaf node).releaseLock node
  return { s with toHeap := h }.safeDeleteNode leaf

/-! ### Splits -/

inductive Fanout (α : Type)
  | used (node : α)
  | split (left right : Fanout α)

namespace Fanout

def height : Fanout α → ℕ
  | used _ => 0
  | split left right => max left.height right.height + 1

def nodes : Fanout α → List α
  | used node => [node]
  | split left right => left.nodes ++ right.nodes

def levels : Fanout α → ℕ → List ℕ
  | used _, level => [level]
  | split left right, level => left.levels (level + 1) ++ right.levels (level + 1)

end Fanout

def placeNodes (globalDepth localDepth : ℕ) :
    List Addr → List ℕ → ℕ → (ℕ → Option Addr) → ℕ → Option Addr
  | node :: nodes, level :: levels, cur, children =>
    let repeats := 2 ^ (globalDepth - (localDepth + level))
    placeNodes globalDepth localDepth nodes levels (cur + repeats) fun i =>
      if cur ≤ i ∧ i < cur + repeats then some node else children i
  | _, _, _, children => children

structure Split (K : Type) where
  tree : Fanout Unit
  depth : ℕ
  height_le : tree.height ≤ depth
  limits : ℕ → Limits K
  model : LinearModel K
  expandedNear : K → Option Side

/-- `used_fanout_tree_nodes` is empty: a split in two. -/
def Split.inTwo (c : Split K) : Split K :=
  { c with
    tree := .split (.used ()) (.used ())
    depth := 1
    height_le := le_rfl }

namespace Heap

variable (h : Heap K)

/-- Data nodes from the address `fresh` on, locked and linked to each other. -/
def createNewDataNodes (n : ℕ) (level : ℤ) (depth : ℕ → ℕ) (limits : ℕ → Limits K) : Heap K :=
  let new a := h.fresh ≤ a ∧ a < h.fresh + n
  { h with
    fresh := h.fresh + n
    isLeaf a := if new a then true else h.isLeaf a
    localDepth a := if new a then depth (a - h.fresh) else h.localDepth a
    level a := if new a then level else h.level a
    nextLeaf a :=
      if new a then if a + 1 < h.fresh + n then some (a + 1) else none else h.nextLeaf a
    prevLeaf a := if new a then if h.fresh < a then some (a - 1) else none else h.prevLeaf a
    limits a := if new a then limits (a - h.fresh) else h.limits a
    locked a := if new a then true else h.locked a }

def releaseLocks (start n : ℕ) : Heap K :=
  { h with locked a := if start ≤ a ∧ a < start + n then false else h.locked a }

def newModelNode (localDepth : ℕ) (level : ℤ) (model : LinearModel K) (numChildren : ℕ)
    (children : ℕ → Option Addr) : Heap K :=
  { h with
    fresh := h.fresh + 1
    isLeaf := update h.isLeaf h.fresh false
    localDepth := update h.localDepth h.fresh localDepth
    level := update h.level h.fresh level
    model := update h.model h.fresh model
    numChildren := update h.numChildren h.fresh numChildren
    children := update h.children h.fresh children }

def expand (oldNode : Addr) (log2ExpansionFactor : ℕ) (near : K → Option Side) : Heap K :=
  let expansionFactor := 2 ^ log2ExpansionFactor
  h.newModelNode (h.localDepth oldNode) (h.level oldNode)
    ((h.model oldNode).expand expansionFactor near)
    (h.numChildren oldNode * expansionFactor)
    fun i => h.children oldNode (i / expansionFactor)

end Heap

namespace Index

variable (s : Index K)

/-- The end of both kinds of split: the new data nodes have the addresses from `first` on. -/
def finishSplit (leaf first n : ℕ) : Index K :=
  let h := (s.linkDataNodes leaf first (first + n - 1)).releaseLocks first n
  { s with toHeap := h }.safeDeleteNode leaf

def replaceChild (parent bucketID oldNode node : ℕ) : Index K :=
  let h := s.setChildren parent (s.startBucketID parent oldNode bucketID)
    (s.repeats parent oldNode) node
  let s := { s with toHeap := h }
  if parent = s.superroot then { s with rootNode := node }.updateSuperrootPointer else s

def splitDownwards (c : Split K) (leaf parent bucketID : ℕ) : Index K :=
  let levels := c.tree.levels 0
  let first := s.fresh
  let n := levels.length
  let h := s.createNewDataNodes n (s.level leaf + 1) (fun i => levels.getD i 0) c.limits
  let newNode := h.fresh
  let children := placeNodes c.depth 0 (List.range' first n) levels 0 fun _ => none
  let h := h.newModelNode (s.localDepth leaf) (s.level leaf) c.model (2 ^ c.depth) children
  ({ s with toHeap := h }.replaceChild parent bucketID leaf newNode).finishSplit leaf first n

def splitInParent (c : Split K) (leaf parent bucketID : ℕ) : Index K :=
  let levels := c.tree.levels 0
  let first := s.fresh
  let n := levels.length
  let globalDepth := Nat.log2 (s.numChildren parent)
  let start := s.startBucketID parent leaf bucketID
  let h := s.createNewDataNodes n (s.level parent + 1)
    (fun i => s.localDepth leaf + levels.getD i 0) c.limits
  let children := placeNodes globalDepth (s.localDepth leaf) (List.range' first n) levels start
    (s.children parent)
  let h := { h with children := update h.children parent children }
  { s with toHeap := h }.finishSplit leaf first n

def expandNode (c : Split K) (key : K) (node log2ExpansionFactor : ℕ) :
    Except Stop (Index K) := do
  let (grandParent, parentBucketID) ← orStop .retries (s.lockParentNode key node)
  let newNode := s.fresh
  let h := s.expand node log2ExpansionFactor c.expandedNear
  let s := { s with toHeap := h }.replaceChild grandParent parentBucketID node newNode
  return s.safeDeleteNode node

def splitSidewaysDownwardsWithoutParent (c : Split K) (key : K) (leaf : Addr) :
    Except Stop (Index K) := do
  let (parent, _) ← orStop .retries (s.lockParentNode key leaf)
  let bucketID := s.bucketID parent key
  let fanout := 2 ^ c.depth
  let repeats := s.repeats parent leaf
  if s.maxFanout < s.numChildren parent * fanout / repeats ∨ s.level parent = s.level s.superroot
  then return s.splitDownwards c leaf parent bucketID
  else if repeats < fanout then
    let log2ExpansionFactor := c.depth - (Nat.log2 (s.numChildren parent) - s.localDepth leaf)
    let newNode := s.fresh
    let s ← s.expandNode c key parent log2ExpansionFactor
    return s.splitInParent c leaf newNode (bucketID * 2 ^ log2ExpansionFactor)
  else return s.splitInParent c leaf parent bucketID

end Index

/-! ### Root expansion -/

structure Expansion (K : Type) where
  side : Side
  /-- `expansion_factor > 1` is asserted. -/
  log2ExpansionFactor : ℕ
  pos : 0 < log2ExpansionFactor
  model : LinearModel K
  newDomain : K
  limits : ℕ → Limits K

structure Growth (K : Type) where
  index : Index K
  newNodesStart : ℕ
  newNodesEnd : ℕ

namespace Index

variable (s : Index K)

def growRoot (e : Expansion K) : Growth K :=
  let root := s.rootNode
  let numChildren := s.numChildren root
  let newNumChildren := numChildren * 2 ^ e.log2ExpansionFactor
  match e.side with
  | .left =>
    let copyStart := newNumChildren - numChildren
    { index := { s with
        model := update s.model root e.model
        numChildren := update s.numChildren root newNumChildren
        children := update s.children root fun i =>
          if copyStart ≤ i then s.children root (i - copyStart) else none }
      newNodesStart := 0
      newNodesEnd := copyStart }
  | .right =>
    { index := { s with
        numChildren := update s.numChildren root newNumChildren
        children := update s.children root fun i =>
          if i < numChildren then s.children root i else none }
      newNodesStart := numChildren
      newNodesEnd := newNumChildren }

def newRoot (e : Expansion K) : Growth K :=
  let expansionFactor := 2 ^ e.log2ExpansionFactor
  let bucketID := match e.side with
    | .left => expansionFactor - 1
    | .right => 0
  let h := s.newModelNode 0 (s.level s.rootNode - 1) e.model expansionFactor
    fun i => if i = bucketID then some s.rootNode else none
  let newNodesStart := match e.side with
    | .left => 0
    | .right => 1
  { index := { s with toHeap := h, rootNode := s.fresh }.updateSuperrootPointer
    newNodesStart
    newNodesEnd := newNodesStart + expansionFactor - 1 }

/-- One new data node for every `n` slots, as far as the new domain reaches. -/
def fillRoot (g : Growth K) (e : Expansion K) (outermost : Addr) : Except Stop (Index K) := do
  let s := g.index
  let root := s.rootNode
  let n := s.numChildren root - (g.newNodesEnd - g.newNodesStart)
  let predicted := (s.model root).predict e.newDomain
  let count := match e.side with
    | .left => (g.newNodesEnd - max g.newNodesStart predicted.toNat + n - 1) / n
    | .right => (min g.newNodesEnd (predicted + 1).toNat - g.newNodesStart + n - 1) / n
  -- the children next to the old ones are linked to the outermost data node
  if count = 0 then throw .undefined
  let start := match e.side with
    | .left => g.newNodesEnd - count * n
    | .right => g.newNodesStart
  let newLocalDepth := Nat.log2 (s.numChildren root) - Nat.log2 n
  let first := s.fresh
  let h := s.createNewDataNodes count (s.level root + 1) (fun _ => newLocalDepth) e.limits
  let children i :=
    if start ≤ i ∧ i < start + count * n then some (first + (i - start) / n)
    else s.children root i
  let h := { h with children := update h.children root children }
  let h := match e.side with
    | .left => { h with
        prevLeaf := update h.prevLeaf outermost (some (first + count - 1))
        nextLeaf := update h.nextLeaf (first + count - 1) (some outermost) }
    | .right => { h with
        nextLeaf := update h.nextLeaf outermost (some first)
        prevLeaf := update h.prevLeaf first (some outermost) }
  return { s with toHeap := h.releaseLocks first count }

def expandRoot (e : Expansion K) : Except Stop (Index K) := do
  let outermost ← orStop .undefined <| match e.side with
    | .left => s.firstDataNode
    | .right => s.lastDataNode
  let g :=
    if s.numChildren s.rootNode * 2 ^ e.log2ExpansionFactor ≤ s.maxFanout then s.growRoot e
    else s.newRoot e
  fillRoot g e outermost

end Index

/-! ### Bulk load -/

/-- What `bulk_load_node` decides for a node. -/
inductive Plan (K : Type)
  | data (limits : Limits K)
  | model (model : LinearModel K) (moreLevels : ℕ) (children : Fanout (Plan K))

mutual

def Plan.bulkLoadNode (level : ℤ) (depth : ℕ) : Plan K → Heap K → Heap K
  | .data limits, h =>
    (h.createNewDataNodes 1 level (fun _ => depth) fun _ => limits).releaseLocks h.fresh 1
  | .model model moreLevels children, h =>
    let r := Fanout.bulkLoadNodes (level + 1) 0 children h
    let fanoutTreeDepth := children.height + moreLevels
    r.1.newModelNode depth level model (2 ^ fanoutTreeDepth)
      (placeNodes fanoutTreeDepth 0 r.2 (children.levels 0) 0 fun _ => none)

def Fanout.bulkLoadNodes (level : ℤ) (depth : ℕ) : Fanout (Plan K) → Heap K → Heap K × List Addr
  | .used node, h =>
    let h := Plan.bulkLoadNode level depth node h
    (h, [h.fresh - 1])
  | .split left right, h =>
    let l := Fanout.bulkLoadNodes level (depth + 1) left h
    let r := Fanout.bulkLoadNodes level (depth + 1) right l.1
    (r.1, l.2 ++ r.2)

end

namespace Heap

variable (h : Heap K)

def linkAllDataNodes : Option Addr → List Addr → Heap K → Heap K
  | _, [], h => h
  | prevLeaf, node :: nodes, h =>
    linkAllDataNodes (some node) nodes <| match prevLeaf with
      | some prev => { h with
          nextLeaf := update h.nextLeaf prev (some node)
          prevLeaf := update h.prevLeaf node (some prev) }
      | none => h

end Heap

namespace Index

variable (s : Index K)

def createSuperroot : Index K :=
  let h := s.newModelNode 0 (s.level s.rootNode - 1) (s.model s.superroot) 1 fun _ => none
  { s with toHeap := h, superroot := s.fresh }.updateSuperrootPointer

/-- The iterator of `link_all_data_nodes` meets the data nodes in the order of their making. -/
def bulkLoad (numKeys : ℤ) (plan : Plan K) : Index K :=
  if 0 < s.numKeys ∨ numKeys ≤ 0 then s
  else
    let h := plan.bulkLoadNode 0 0 s.toHeap
    let leaves := (List.range' s.fresh (h.fresh - s.fresh)).filter h.isLeaf
    let s := { s with toHeap := h, rootNode := h.fresh - 1, numKeys }.createSuperroot
    { s with toHeap := s.linkAllDataNodes none leaves }

def new (maxFanout : ℕ) (limits : Limits K) (model : LinearModel K) : Index K :=
  let h : Heap K :=
    { fresh := 1
      isLeaf _ := true
      localDepth _ := 0
      level _ := 0
      model _ := model
      numChildren _ := 0
      children _ _ := none
      nextLeaf _ := none
      prevLeaf _ := none
      limits _ := limits
      locked _ := false }
  createSuperroot
    { toHeap := h
      rootNode := 0
      superroot := 0
      scheduled := []
      maxFanout
      numKeys := 0
      insertCounter := 0
      eraseCounter := 0 }

end Index

/-! ### Calls -/

inductive CallReply
  | bulkLoad
  | insert (inserted : Bool)
  | erase (numErased : ℕ)
  deriving DecidableEq, Repr

/-- The decisions in an insert: whether `should_expand_right` or `should_expand_left` hold for the
key, what the data node answers if it is not locked, and the split. -/
structure InsertChoice (K : Type) where
  expansion : Option (Expansion K)
  flag : InsertFlag
  split : Split K

namespace Index

variable (s : Index K)

def expandDomain (c : InsertChoice K) : Except Stop (Index K) :=
  match c.expansion with
  | some e => if s.isLeaf s.rootNode then .ok s else s.expandRoot e
  | none => .ok s

def keepLock (leaf : Addr) : Index K := { s with locked := update s.locked leaf true }

def countInsert : Index K :=
  let insertCounter := (s.insertCounter + 1) % 2 ^ 19
  { s with
    insertCounter
    numKeys := if insertCounter = 0 then s.numKeys + 2 ^ 19 else s.numKeys }

def afterInsert (c : InsertChoice K) (key : K) (leaf : Addr) : Except Stop (CallReply × Index K) :=
  match c.flag with
  | .locking => .error .retries
  | .duplicate => .ok (.insert false, s)
  | .inserted => .ok (.insert true, s.countInsert)
  | .resizing => do
    let s ← (s.keepLock leaf).replaceDataNode key leaf
    return (.insert true, s)
  | .costDeviation => do
    let s ← if c.split.depth = 0 then (s.keepLock leaf).replaceDataNode key leaf
      else (s.keepLock leaf).splitSidewaysDownwardsWithoutParent c.split key leaf
    return (.insert true, s.countInsert)
  | .catastrophicCost | .maxCapacity => do
    let s ← (s.keepLock leaf).splitSidewaysDownwardsWithoutParent c.split.inTwo key leaf
    return (.insert true, s.countInsert)

def insert (c : InsertChoice K) (key : K) : Except Stop (CallReply × Index K) := do
  let s ← s.expandDomain c
  let leaf ← orStop .undefined (s.getLeaf key)
  if s.locked leaf then throw .retries
  s.afterInsert c key leaf

def countErase (numErased : ℕ) : Index K :=
  let eraseCounter := (s.eraseCounter + numErased) % 2 ^ 19
  { s with
    eraseCounter
    numKeys := if eraseCounter < s.eraseCounter then s.numKeys - (2 ^ 19 - 1) else s.numKeys }

def erase (flag : EraseFlag) (numErased : ℕ) (key : K) : Except Stop (CallReply × Index K) := do
  let leaf ← orStop .undefined (s.getLeaf key)
  if s.locked leaf then throw .retries
  match flag with
  | .locking => .error .retries
  | .erased => .ok (.erase numErased, s.countErase numErased)
  | .contraction => do
    let s ← (s.keepLock leaf).replaceDataNode key leaf
    return (.erase numErased, s.countErase numErased)

end Index

inductive Call (K : Type)
  | bulkLoad (numKeys : ℤ) (plan : Plan K)
  | insert (key : K) (c : InsertChoice K)
  | erase (key : K) (flag : EraseFlag) (numErased : ℕ)

def Index.call (s : Index K) : Call K → Except Stop (CallReply × Index K)
  | .bulkLoad numKeys plan => .ok (.bulkLoad, s.bulkLoad numKeys plan)
  | .insert key c => s.insert c key
  | .erase key flag numErased => s.erase flag numErased key

end LearnedIndexFramework.Alexol
