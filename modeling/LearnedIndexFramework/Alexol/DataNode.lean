import LearnedIndexFramework.Alexol.Bitmap
import LearnedIndexFramework.Lib.Gallop
import LearnedIndexFramework.Lib.Run
import Mathlib.Data.Rat.Init
import Mathlib.Algebra.Order.Ring.Rat

/-! The data nodes of the concurrent ALEX: a sorted array with gaps, and what the index does with
the node of a key.  `none` is an access out of bounds or a failed assertion. -/

namespace LearnedIndexFramework.Alexol

open Lib

structure DataNode (K P : Type) where
  model : K → ℤ
  keySlots : List K
  payloadSlots : List P
  bitmap : Bitmap
  dataCapacity : ℕ
  bitmapSize : ℕ
  numKeys : ℕ
  expansionThreshold : ℚ
  contractionThreshold : ℚ
  numInserts : ℕ
  locked : Bool

/-- What an operation computes in floating point or decides by it, and the memory it gets.  All of
it is arbitrary. -/
structure Choice (K P : Type) where
  slots : ℕ
  maxFilled : ℚ
  minFilled : ℚ
  model : K → ℤ
  freshKeys : ℕ → K
  freshPayloads : ℕ → P
  catastrophicCost : Bool
  significantCostDeviation : Bool
  atMaxCapacity : Bool
  /-- `fanout_tree_depth == 0`: expand and retrain instead of a split -/
  retrain : Bool

section Slots

variable {α : Type}

def copySlot (xs : List α) (i j : ℕ) : List α :=
  match xs[j]? with
  | some x => xs.set i x
  | none => xs

def shiftRight (xs : List α) (pos : ℕ) : ℕ → List α
  | 0 => xs
  | n + 1 => shiftRight (copySlot xs (pos + n + 1) (pos + n)) pos n

def shiftLeft (xs : List α) (i : ℕ) : ℕ → List α
  | 0 => xs
  | n + 1 => shiftLeft (copySlot xs i (i + 1)) (i + 1) n

def fillSlots (xs : List α) (x : α) (i : ℕ) : ℕ → List α
  | 0 => xs
  | n + 1 => fillSlots (xs.set i x) x (i + 1) n

/-- `while (pos >= 0 && !check_exists(pos)) xs[pos--] = x`, from below the given position. -/
def fillGaps (bits : Bitmap) (x : α) : ℕ → List α → List α
  | 0, xs => xs
  | pos + 1, xs => if bits.bit pos then xs else fillGaps bits x pos (xs.set pos x)

end Slots

section DataNode

variable {K P : Type} [LinearOrder K] [OrderTop K]

structure Arrays (K P : Type) where
  keySlots : List K
  payloadSlots : List P
  bitmap : Bitmap

/-- `max(static_cast<int>(num_keys / density), num_keys + 1)` -/
def capacityFor (c : Choice K P) (numKeys : ℕ) : ℕ :=
  max (if numKeys = 0 then 0 else c.slots) (numKeys + 1)

def bitmapSizeFor (capacity : ℕ) : ℕ := (capacity + 63) / 64

def Arrays.fresh (c : Choice K P) (capacity : ℕ) : Arrays K P where
  keySlots := (List.range capacity).map c.freshKeys
  payloadSlots := (List.range capacity).map c.freshPayloads
  bitmap := List.replicate (64 * bitmapSizeFor capacity) false

def Arrays.put (s : Arrays K P) (pos : ℕ) (entry : K × P) : Arrays K P where
  keySlots := s.keySlots.set pos entry.1
  payloadSlots := s.payloadSlots.set pos entry.2
  bitmap := s.bitmap.set pos true

def putAll : List (K × P) → ℕ → Arrays K P → Arrays K P
  | [], _, s => s
  | entry :: entries, pos, s => putAll entries (pos + 1) (s.put pos entry)

/-- The model-based inserts of `bulk_load` and `resize_from_existing`, with `last_position + 1` and
the number of entries left.  The result has the first position behind the entries. -/
def place (model : K → ℤ) (capacity : ℕ) :
    List (K × P) → ℕ → ℕ → Arrays K P → Arrays K P × ℕ
  | [], next, _, s => (s, next)
  | entry :: entries, next, remaining, s =>
    let position := max (model entry.1).toNat next
    let positionsRemaining : ℤ := capacity - position
    if positionsRemaining < remaining then
      let pos := capacity - remaining
      let s := { s with keySlots := fillSlots s.keySlots entry.1 next (pos - next) }
      (putAll (entry :: entries) pos s, capacity)
    else
      let s := { s with keySlots := fillSlots s.keySlots entry.1 next (position - next) }
      place model capacity entries (position + 1) (remaining - 1) (s.put position entry)

def layOut (model : K → ℤ) (capacity : ℕ) (entries : List (K × P)) (s : Arrays K P) :
    Arrays K P :=
  let r := place model capacity entries 0 entries.length s
  { r.1 with keySlots := fillSlots r.1.keySlots ⊤ r.2 (capacity - r.2) }

def expansionThresholdFor (c : Choice K P) (numKeys capacity : ℕ) : ℚ :=
  min (max c.maxFilled (numKeys + 1)) capacity

def bulkLoad (c : Choice K P) (values : List (K × P)) : DataNode K P :=
  let numKeys := values.length
  let capacity := capacityFor c numKeys
  let s := Arrays.fresh c capacity
  let s :=
    if numKeys = 0 then { s with keySlots := fillSlots s.keySlots ⊤ 0 capacity }
    else layOut c.model capacity values s
  { model := c.model
    keySlots := s.keySlots
    payloadSlots := s.payloadSlots
    bitmap := s.bitmap
    dataCapacity := capacity
    bitmapSize := bitmapSizeFor capacity
    numKeys
    expansionThreshold := if numKeys = 0 then capacity else expansionThresholdFor c numKeys capacity
    contractionThreshold := if numKeys = 0 then 0 else c.minFilled
    numInserts := 0
    locked := false }

namespace DataNode

variable (node : DataNode K P)

def entries : List (K × P) :=
  (List.range node.dataCapacity).filterMap fun i =>
    if node.bitmap.bit i then
      node.keySlots[i]?.bind fun key => node.payloadSlots[i]?.map fun payload => (key, payload)
    else none

/-- `New_from_existing` and `resize_from_existing`: the node that takes the place of another. -/
def resizeFromExisting (c : Choice K P) : DataNode K P :=
  let capacity := capacityFor c node.numKeys
  let s := Arrays.fresh c capacity
  if node.numKeys = 0 then
    { node with
      keySlots := s.keySlots
      payloadSlots := s.payloadSlots
      bitmap := s.bitmap
      dataCapacity := capacity
      bitmapSize := bitmapSizeFor capacity
      expansionThreshold := capacity
      contractionThreshold := 0 }
  else
    let s := layOut c.model capacity node.entries s
    { node with
      model := c.model
      keySlots := s.keySlots
      payloadSlots := s.payloadSlots
      bitmap := s.bitmap
      dataCapacity := capacity
      bitmapSize := bitmapSizeFor capacity
      expansionThreshold := expansionThresholdFor c node.numKeys capacity
      contractionThreshold := c.minFilled }

def predictPosition (key : K) : ℕ :=
  (max (min (node.model key) (node.dataCapacity - 1)) 0).toNat

def exponentialSearchUpperBound (m : ℕ) (key : K) : Option ℕ :=
  exponentialSearch (fun i => node.keySlots[i]?.map fun x => decide (x > key)) node.dataCapacity m

def upperBound (key : K) : Option ℕ :=
  node.exponentialSearchUpperBound (node.predictPosition key) key

def checkExists (pos : ℕ) : Option Bool :=
  if pos < node.dataCapacity then some (node.bitmap.bit pos) else none

def findInsertPosition (key : K) : Option (ℕ × ℕ) := do
  let predictedPos := node.predictPosition key
  let pos ← node.exponentialSearchUpperBound predictedPos key
  if predictedPos ≤ pos then return (pos, pos)
  let filled ← node.checkExists pos
  if filled then return (pos, pos)
  return (min predictedPos
    (getNextFilledPosition node.bitmap node.dataCapacity pos true - 1), pos)

def insertElementAt (key : K) (payload : P) (pos : ℕ) : Option (DataNode K P) :=
  if pos < node.dataCapacity then
    some { node with
      keySlots := fillGaps node.bitmap key pos (node.keySlots.set pos key)
      payloadSlots := node.payloadSlots.set pos payload
      bitmap := node.bitmap.set pos true }
  else none

def insertUsingShifts (key : K) (payload : P) (pos : ℕ) : Option (DataNode K P) := do
  -- `set_bit` of the position -1 fails
  let gapPos ← closestGap node.bitmap node.dataCapacity node.bitmapSize pos
  let bitmap := node.bitmap.set gapPos true
  if pos ≤ gapPos then
    let node := { node with
      keySlots := shiftRight node.keySlots pos (gapPos - pos)
      payloadSlots := shiftRight node.payloadSlots pos (gapPos - pos)
      bitmap }
    node.insertElementAt key payload pos
  else
    let node := { node with
      keySlots := shiftLeft node.keySlots gapPos (pos - 1 - gapPos)
      payloadSlots := shiftLeft node.payloadSlots gapPos (pos - 1 - gapPos)
      bitmap }
    node.insertElementAt key payload (pos - 1)

end DataNode

/-- The fail flags of `insert`, by their numbers -1, 0, .., 5. -/
inductive InsertFlag
  | duplicate | inserted | costDeviation | catastrophicCost | maxCapacity | locking | resizing
  deriving DecidableEq, Repr

/-- The return values 0, 1, 2 of `erase`. -/
inductive EraseFlag
  | locking | erased | contraction
  deriving DecidableEq, Repr

namespace DataNode

variable (node : DataNode K P)

def insertKey (key : K) (payload : P) (pos : ℕ) : Option (DataNode K P) := do
  let filled ← if pos < node.dataCapacity then node.checkExists pos else some true
  if filled then node.insertUsingShifts key payload pos else node.insertElementAt key payload pos

/-- The checks of `insert` after the insertion.  With a flag other than the first the node stays
locked. -/
def insertFlag (c : Choice K P) : InsertFlag :=
  if node.numInserts % 64 = 0 ∧ c.catastrophicCost then .catastrophicCost
  else if node.expansionThreshold ≤ node.numKeys then
    if c.significantCostDeviation then .costDeviation
    else if c.catastrophicCost then .catastrophicCost
    else if c.atMaxCapacity then .maxCapacity
    else .resizing
  else .inserted

def insert (c : Choice K P) (key : K) (payload : P) : Option (InsertFlag × DataNode K P) := do
  if node.locked then return (.locking, node)
  let positions ← node.findInsertPosition key
  let upperBoundPos := positions.2
  if 0 < upperBoundPos ∧ node.keySlots[upperBoundPos - 1]? = some key then
    return (.duplicate, node)
  let node ← node.insertKey key payload positions.1
  let node := { node with numKeys := node.numKeys + 1, numInserts := node.numInserts + 1 }
  let flag := node.insertFlag c
  return (flag, { node with locked := flag ≠ .inserted })

def update (key : K) (payload : P) : Option (Bool × DataNode K P) := do
  if node.locked then return (false, node)
  let pos ← node.upperBound key
  if 0 < pos ∧ node.keySlots[pos - 1]? = some key then
    return (true, { node with payloadSlots := node.payloadSlots.set (pos - 1) payload })
  else return (false, node)

/-- The loop of `erase` below a position, with the number of keys that were there. -/
def eraseFrom (key next : K) : ℕ → List K → Bitmap → List K × Bitmap × ℕ
  | 0, keys, bits => (keys, bits, 0)
  | pos + 1, keys, bits =>
    if keys[pos]? = some key then
      let r := eraseFrom key next pos (keys.set pos next) (bits.set pos false)
      (r.1, r.2.1, r.2.2 + (bits.bit pos).toNat)
    else (keys, bits, 0)

def keyFrom (pos : ℕ) : Option K := if pos = node.dataCapacity then some ⊤ else node.keySlots[pos]?

/-- The part of `erase` that changes the node.  For a contraction it stays locked. -/
def eraseBelow (key next : K) (pos : ℕ) : EraseFlag × ℕ × DataNode K P :=
  let r := eraseFrom key next pos node.keySlots node.bitmap
  let node := { node with keySlots := r.1, bitmap := r.2.1, numKeys := node.numKeys - r.2.2 }
  if (node.numKeys : ℚ) < node.contractionThreshold then
    (.contraction, r.2.2, { node with locked := true })
  else (.erased, r.2.2, node)

def erase (key : K) : Option (EraseFlag × ℕ × DataNode K P) := do
  if node.locked then return (.locking, 0, node)
  let pos ← node.upperBound key
  if pos = 0 ∨ node.keySlots[pos - 1]? ≠ some key then return (.erased, 0, node)
  let next ← node.keyFrom pos
  return node.eraseBelow key next pos

def replace (c : Choice K P) : DataNode K P := { node.resizeFromExisting c with locked := false }

end DataNode

inductive Op (K P : Type)
  | insert (key : K) (payload : P) (c : Choice K P)
  | update (key : K) (payload : P)
  | erase (key : K) (c : Choice K P)

inductive Reply
  | insert (flag : InsertFlag)
  | update (updated : Bool)
  | erase (flag : EraseFlag) (count : ℕ)
  deriving DecidableEq, Repr

/-- The operation, with the replacement of the node where the index makes one.  A node that is to
be split stays as it is, locked. -/
def Op.apply (node : DataNode K P) : Op K P → Option (Reply × DataNode K P)
  | .insert key payload c => do
    let r ← node.insert c key payload
    let replaced := r.1 = .resizing ∨ r.1 = .costDeviation ∧ c.retrain = true
    return (.insert r.1, if replaced then r.2.replace c else r.2)
  | .update key payload => do
    let r ← node.update key payload
    return (.update r.1, r.2)
  | .erase key c => do
    let r ← node.erase key
    return (.erase r.1 r.2.1, if r.1 = .contraction then r.2.2.replace c else r.2.2)

end DataNode

end LearnedIndexFramework.Alexol
