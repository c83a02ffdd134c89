import LearnedIndexFramework.Lib.Fallible
import LearnedIndexFramework.Lib.Layers
import Mathlib.Algebra.Order.Ring.Nat
import Mathlib.Logic.Function.Basic
import Mathlib.Order.BoundedOrder.Basic

/-! The dynamic PGM index: sorted levels of exponentially growing size, where a newer level hides
what an older one says about a key, and a deleted key leaves a tombstone behind. -/

namespace LearnedIndexFramework.Pgm

open Lib Function

inductive Stop
  | throws (what : String)
  | undefined
  | diverges
  deriving DecidableEq

def orUndefined {α : Type} : Option α → Except Stop α
  | some a => .ok a
  | none => .error .undefined

variable {K V : Type}

section Item

structure Item (K V : Type) where
  first : K
  second : V
  deriving DecidableEq

variable [DecidableEq V] [Top V]

def Item.ofKey (key : K) : Item K V := ⟨key, ⊤⟩

def Item.ofPair (key : K) (value : V) : Except Stop (Item K V) :=
  if value = ⊤ then .error (.throws "The specified value is reserved and cannot be used.")
  else .ok ⟨key, value⟩

def Item.deleted (item : Item K V) : Bool := item.second = ⊤

end Item

section Search

variable [LinearOrder K]

/-- The loop of `lower_bound_bl`.  The first argument limits its rounds. -/
def lowerBoundLoop (xs : List (Item K V)) (x : K) : ℕ → ℕ → ℕ → Except Stop ℕ
  | 0, first, _ => .ok first
  | fuel + 1, first, n =>
    if 1 < n then do
      let half := n / 2
      let mid ← orUndefined xs[first + half]?
      lowerBoundLoop xs x fuel (if mid.first < x then first + half else first) (n - half)
    else .ok first

def lowerBoundBl (xs : List (Item K V)) (first last : ℕ) (x : K) : Except Stop ℕ :=
  if first = last then .ok first
  else do
    let first ← lowerBoundLoop xs x (last - first) first (last - first)
    let item ← orUndefined xs[first]?
    return first + if item.first < x then 1 else 0

def upperBound (xs : List (Item K V)) (first last : ℕ) (x : K) : ℕ :=
  first + ((xs.take last).drop first).findIdx fun item => x < item.first

/-- `merge<SkipDeleted, Move>`, where the items of the first list are the newer ones -/
def merge [DecidableEq V] [Top V] (skipDeleted : Bool) :
    List (Item K V) → List (Item K V) → List (Item K V)
  | [], ys => ys
  | xs, [] => xs
  | x :: xs, y :: ys =>
    if y.first < x.first then y :: merge skipDeleted (x :: xs) ys
    else if x.first < y.first then x :: merge skipDeleted xs (y :: ys)
    else if skipDeleted && x.deleted then merge skipDeleted xs ys
    else x :: merge skipDeleted xs ys
termination_by xs ys => xs.length + ys.length

end Search

def ceilLog2 (n : ℕ) : ℕ := if n ≤ 1 then 0 else Nat.log2 (n - 1) + 1

def ceilLogBase (base n : ℕ) : ℕ := (ceilLog2 n + ceilLog2 base - 1) / ceilLog2 base

/-- A static index is represented by the keys it was built on; `none` is a default-constructed
one. -/
structure DynamicPgm (K V : Type) where
  base : ℕ
  minLevel : ℕ
  minIndexLevel : ℕ
  bufferMaxSize : ℕ
  usedLevels : ℕ
  levels : List (List (Item K V))
  pgms : List (Option (List K))
  deriving DecidableEq

namespace DynamicPgm

section Access

variable (t : DynamicPgm K V)

def level (i : ℕ) : Except Stop (List (Item K V)) := orUndefined t.levels[i - t.minLevel]?

def setLevel (i : ℕ) (items : List (Item K V)) : Except Stop (DynamicPgm K V) :=
  if i - t.minLevel < t.levels.length then
    .ok { t with levels := t.levels.set (i - t.minLevel) items }
  else .error .undefined

def pgm (i : ℕ) : Except Stop (Option (List K)) := orUndefined t.pgms[i - t.minIndexLevel]?

def setPgm (i : ℕ) (keys : Option (List K)) : Except Stop (DynamicPgm K V) :=
  if i - t.minIndexLevel < t.pgms.length then
    .ok { t with pgms := t.pgms.set (i - t.minIndexLevel) keys }
  else .error .undefined

def hasPgm (i : ℕ) : Bool := t.minIndexLevel ≤ i

def buildPgm (i : ℕ) (keys : Option (List K)) : Except Stop (DynamicPgm K V) :=
  if t.hasPgm i then t.setPgm i keys else .ok t

def maxSize (i : ℕ) : ℕ := 1 <<< (i * ceilLog2 t.base)

def total : ℕ := t.levels.flatten.length

end Access

def new : DynamicPgm K V :=
  let base := 8
  let minLevel := ceilLogBase base 128 - if base = 2 then 1 else 0
  let minIndexLevel := max (minLevel + 1) (ceilLogBase base (1 <<< 24))
  { base, minLevel, minIndexLevel
    bufferMaxSize := ((List.range (minLevel + 1)).map fun j => 1 <<< (j * ceilLog2 base)).sum
    usedLevels := minLevel
    levels := List.replicate (32 - minLevel) []
    pgms := [] }

variable [LinearOrder K] [DecidableEq V] [Top V]

section Build

def copyFirsts : Item K V → List (K × V) → Except Stop (List (Item K V))
  | last, [] => .ok [last]
  | last, (key, value) :: rest =>
    if key < last.first then .error (.throws "Range is not sorted")
    else if key ≠ last.first then do
      let item ← Item.ofPair key value
      let items ← copyFirsts item rest
      return last :: items
    else copyFirsts last rest

/-- `DynamicPGMIndex(first, last)` -/
def ofRange (keyValue : List (K × V)) : Except Stop (DynamicPgm K V) :=
  let t : DynamicPgm K V := new
  let n := keyValue.length
  let usedLevels := max (ceilLogBase t.base n) t.minLevel + 1
  let t := { t with
    usedLevels
    levels := List.replicate (max usedLevels 32 - t.minLevel + 1) [] }
  match keyValue with
  | [] => .ok { t with usedLevels := t.minLevel }
  | (key, value) :: rest => do
    let item ← Item.ofPair key value
    let target ← copyFirsts item rest
    let t ← t.setLevel (usedLevels - 1) target
    if t.hasPgm (usedLevels - 1) then
      let t := { t with pgms := List.replicate (usedLevels - t.minIndexLevel) none }
      t.setPgm (usedLevels - 1) (some (target.map Item.first))
    else return t

end Build

section Insert

variable (t : DynamicPgm K V)

/-- The merge of `tmp` with the levels from `i` on, which are emptied.  The first argument is
their number, the second the length of the temporary arrays. -/
def mergeLevels (size : ℕ) :
    ℕ → ℕ → List (Item K V) → DynamicPgm K V → Except Stop (List (Item K V) × DynamicPgm K V)
  | 0, _, tmp, t => .ok (tmp, t)
  | n + 1, i, tmp, t => do
    let level ← t.level i
    let canDeletePermanently : Bool := i = t.usedLevels - 1
    let out := merge canDeletePermanently tmp level
    if size < out.length then .error .undefined
    else do
      let t ← t.setLevel i []
      let t ← t.buildPgm i none
      mergeLevels size n (i + 1) out t

def pairwiseMerge (newItem : Item K V) (target sizeHint insertionPoint : ℕ) :
    Except Stop (DynamicPgm K V) := do
  let buffer ← t.level t.minLevel
  let old ← t.level target
  let size := sizeHint + old.length
  let tmp := buffer.take insertionPoint ++ newItem :: buffer.drop insertionPoint
  if size < tmp.length then .error .undefined
  else do
    let mergeLimit := if old.isEmpty then target - 1 else target
    let (tmp, t) ← mergeLevels size (mergeLimit - t.minLevel) (t.minLevel + 1) tmp t
    let t ← t.setLevel t.minLevel []
    let t ← t.setLevel target tmp
    t.buildPgm target (some (tmp.map Item.first))

/-- The level that takes the buffer and all levels up to itself, from `i` on, and the number of
their items.  The first argument is the number of levels that are left. -/
def findTarget : ℕ → ℕ → ℕ → Except Stop (ℕ × ℕ)
  | 0, i, slotsRequired => .ok (i, slotsRequired)
  | n + 1, i, slotsRequired => do
    let level ← t.level i
    let slotsLeftInLevel := t.maxSize i - level.length
    if slotsRequired ≤ slotsLeftInLevel then return (i, slotsRequired)
    else findTarget n (i + 1) (slotsRequired + level.length)

def addLevel (i : ℕ) : DynamicPgm K V := { t with
  usedLevels := t.usedLevels + 1
  levels := t.levels ++ [[]]
  pgms := if (t.pgms.length : ℤ) ≤ i - t.minIndexLevel then t.pgms ++ [none] else t.pgms }

def insertBelow (newItem : Item K V) (insertionPoint : ℕ) : Except Stop (DynamicPgm K V) := do
  let (i, slotsRequired) ←
    t.findTarget (t.usedLevels - (t.minLevel + 1)) (t.minLevel + 1) (t.bufferMaxSize + 1)
  let t := if i = t.usedLevels then t.addLevel i else t
  t.pairwiseMerge newItem i slotsRequired insertionPoint

def insertAt (newItem : Item K V) (buffer : List (Item K V)) (insertionPoint : ℕ) :
    Except Stop (DynamicPgm K V) :=
  if (buffer[insertionPoint]?).any (·.first = newItem.first) then
    t.setLevel t.minLevel (buffer.set insertionPoint newItem)
  else if buffer.length < t.bufferMaxSize then do
    let t ← t.setLevel t.minLevel
      (buffer.take insertionPoint ++ newItem :: buffer.drop insertionPoint)
    return { t with usedLevels :=
      if t.usedLevels = t.minLevel then t.minLevel + 1 else t.usedLevels }
  else t.insertBelow newItem insertionPoint

def insert (newItem : Item K V) : Except Stop (DynamicPgm K V) := do
  let buffer ← t.level t.minLevel
  let insertionPoint ← lowerBoundBl buffer 0 buffer.length newItem.first
  t.insertAt newItem buffer insertionPoint

def insertOrAssign (key : K) (value : V) : Except Stop (DynamicPgm K V) := do
  let item ← Item.ofPair key value
  t.insert item

def erase (key : K) : Except Stop (DynamicPgm K V) := t.insert (.ofKey key)

end Insert

section Find

/-- A level and a position in it; `none` in place of a cursor is `end()`. -/
structure Cursor where
  levelNumber : ℕ
  iterator : ℕ
  deriving DecidableEq

variable (search : List K → K → Except Stop (ℕ × ℕ)) (t : DynamicPgm K V)

/-- Where `key` is looked for in a level: `range.lo` and `range.hi` of the level's static index,
which is `search`, or the whole level. -/
def window (i : ℕ) (level : List (Item K V)) (key : K) : Except Stop (ℕ × ℕ) :=
  if t.hasPgm i then do
    let keys ← orUndefined (← t.pgm i)
    search keys key
  else .ok (0, level.length)

def findFrom (key : K) : ℕ → ℕ → Except Stop (Option Cursor)
  | 0, _ => .ok none
  | n + 1, i => do
    let level ← t.level i
    if level.isEmpty then findFrom key n (i + 1)
    else do
      let (first, last) ← t.window search i level key
      let it ← lowerBoundBl level first last key
      if it = level.length then findFrom key n (i + 1)
      else do
        let item ← orUndefined level[it]?
        if item.first = key then return if item.deleted then none else some ⟨i, it⟩
        else findFrom key n (i + 1)

def find (key : K) : Except Stop (Option Cursor) :=
  t.findFrom search key (t.usedLevels - t.minLevel) t.minLevel

def deref (c : Cursor) : Except Stop (Item K V) := do
  let level ← t.level c.levelNumber
  orUndefined level[c.iterator]?

def get (key : K) : Except Stop (Option V) := do
  match ← t.find search key with
  | none => return none
  | some c =>
    let item ← t.deref c
    return some item.second

end Find

section Range

variable (search : List K → K → Except Stop (ℕ × ℕ)) (t : DynamicPgm K V)

def rangeFrom (lo hi : K) : ℕ → ℕ → List (Item K V) → Except Stop (List (Item K V))
  | 0, _, tmp => .ok tmp
  | n + 1, i, tmp => do
    let level ← t.level i
    if level.isEmpty then rangeFrom lo hi n (i + 1) tmp
    else do
      let (loFirst, loLast) ← t.window search i level lo
      let (hiFirst, hiLast) ← t.window search i level hi
      let itLo ← lowerBoundBl level loFirst loLast lo
      let itHi := upperBound level (max itLo hiFirst) hiLast hi
      if itHi = itLo then rangeFrom lo hi n (i + 1) tmp
      else rangeFrom lo hi n (i + 1) (merge false tmp ((level.take itHi).drop itLo))

def range (lo hi : K) : Except Stop (List (K × V)) :=
  if hi < lo then .error (.throws "lo > hi")
  else do
    let tmp ← t.rangeFrom search lo hi (t.usedLevels - t.minLevel) t.minLevel []
    return (tmp.filter (!·.deleted)).map fun item => (item.first, item.second)

end Range

section LowerBound

structure Bound (K : Type) where
  lb : Option (Cursor × K) := none
  deleted : List K := []

/-- The inner loop of `lower_bound` over the items of level `i` from position `pos` on.  The cursor
is one that is returned at once. -/
def passLevel (key : K) (i : ℕ) : List (Item K V) → ℕ → Bound K → Option Cursor × Bound K
  | [], _, b => (none, b)
  | item :: rest, pos, b =>
    if b.lb.all (item.first < ·.2) then
      if item.deleted then
        passLevel key i rest (pos + 1) { b with deleted := item.first :: b.deleted }
      else if b.deleted.all (· ≠ item.first) then
        if item.first = key then (some ⟨i, pos⟩, b)
        else (none, { b with lb := some (⟨i, pos⟩, item.first) })
      else passLevel key i rest (pos + 1) b
    else (none, b)

variable (search : List K → K → Except Stop (ℕ × ℕ)) (t : DynamicPgm K V)

def lowerBoundFrom (key : K) : ℕ → ℕ → Bound K → Except Stop (Option Cursor)
  | 0, _, b => .ok (b.lb.map (·.1))
  | n + 1, i, b => do
    let level ← t.level i
    if level.isEmpty then lowerBoundFrom key n (i + 1) b
    else do
      let (first, last) ← t.window search i level key
      let pos ← lowerBoundBl level first last key
      match passLevel key i (level.drop pos) pos b with
      | (some c, _) => return some c
      | (none, b) => lowerBoundFrom key n (i + 1) b

def lowerBound (key : K) : Except Stop (Option Cursor) :=
  t.lowerBoundFrom search key (t.usedLevels - t.minLevel) t.minLevel {}

end LowerBound

end DynamicPgm

end LearnedIndexFramework.Pgm
