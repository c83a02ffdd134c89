import LearnedIndexFramework.Pgm.Model

/-! Iterators over the container: a loser tree merges the levels, the newest item of a key comes
first and hides the others. -/

namespace LearnedIndexFramework.Pgm

open Function

variable {K V : Type}

section LoserTree

structure Loser (K : Type) where
  key : K
  source : ℕ

/-- The positions of `losers` from `k` on are the leaves. -/
structure LoserTree (K : Type) where
  k : ℕ
  losers : ℕ → Loser K

def nextPow2 (x : ℕ) : ℕ :=
  if x = 1 then 1 else if x = 0 then 1 <<< (64 % 64) else 1 <<< (Nat.log2 (x - 1) + 1)

namespace LoserTree

variable [LinearOrder K] [BoundedOrder K]

/-- `LoserTree(ik)`: the leaves behind the last sequence hold the largest key. -/
def new (ik : ℕ) : LoserTree K where
  k := nextPow2 ik
  losers pos := if 0 < ik ∧ nextPow2 ik + (ik - 1) ≤ pos then ⟨⊤, 255⟩ else ⟨⊥, 0⟩

def minSource (tree : LoserTree K) : ℕ := (tree.losers 0).source

def insertStart (tree : LoserTree K) (key : K) (source : ℕ) : LoserTree K :=
  { tree with losers := update tree.losers (tree.k + source) ⟨key, source⟩ }

/-- `init_winner(root)` returns the leaf that wins.  The first argument limits the depth. -/
def initWinner (k : ℕ) : ℕ → ℕ → (ℕ → Loser K) → ℕ × (ℕ → Loser K)
  | 0, root, losers => (root, losers)
  | fuel + 1, root, losers =>
    if k ≤ root then (root, losers)
    else
      let (left, losers) := initWinner k fuel (2 * root) losers
      let (right, losers) := initWinner k fuel (2 * root + 1) losers
      if (losers right).key ≥ (losers left).key then (left, update losers root (losers right))
      else (right, update losers root (losers left))

def init (tree : LoserTree K) : LoserTree K :=
  let (winner, losers) := initWinner tree.k tree.k 1 tree.losers
  { tree with losers := update losers 0 (losers winner) }

/-- The loop of `delete_min_insert` up to the root, with the entry that was not beaten so far. -/
def replay : ℕ → ℕ → Loser K → (ℕ → Loser K) → Loser K × (ℕ → Loser K)
  | 0, _, cand, losers => (cand, losers)
  | fuel + 1, pos, cand, losers =>
    if 0 < pos then
      let loser := losers pos
      if loser.key < cand.key ∨ cand.key ≥ loser.key ∧ loser.source < cand.source then
        replay fuel (pos / 2) loser (update losers pos cand)
      else replay fuel (pos / 2) cand losers
    else (cand, losers)

/-- `none` is the null pointer of a sequence that has ended. -/
def deleteMinInsert (tree : LoserTree K) (key : Option K) : LoserTree K :=
  let source := (tree.losers 0).source
  let (winner, losers) :=
    replay tree.k ((tree.k + source) / 2) ⟨key.getD ⊤, source⟩ tree.losers
  { tree with losers := update losers 0 winner }

end LoserTree

end LoserTree

open DynamicPgm (Cursor)

/-- `DynamicPGMIndex::Iterator`; the end is `none` where an iterator is expected. -/
structure Iterator (K : Type) where
  current : Cursor
  initialized : Bool
  unconsumedCount : ℕ
  tree : LoserTree K
  iterators : List Cursor

variable [LinearOrder K] [BoundedOrder K] [DecidableEq V] [Top V]
  (search : List K → K → Except Stop (ℕ × ℕ)) (t : DynamicPgm K V)

namespace DynamicPgm

def cursorsAbove (key : K) : ℕ → ℕ → Except Stop (List Cursor)
  | 0, _ => .ok []
  | n + 1, i => do
    let level ← t.level i
    if level.isEmpty then cursorsAbove key n (i + 1)
    else do
      let (lo, hi) ← t.window search i level key
      let pos := upperBound level lo hi key
      let rest ← cursorsAbove key n (i + 1)
      return if pos = level.length then rest else ⟨i, pos⟩ :: rest

end DynamicPgm

namespace Iterator

def ofCursor (c : Cursor) : Iterator K where
  current := c
  initialized := false
  unconsumedCount := 0
  tree := ⟨0, fun _ => ⟨⊥, 0⟩⟩
  iterators := []

def insertStarts : List Cursor → ℕ → LoserTree K → Except Stop (LoserTree K)
  | [], _, tree => .ok tree
  | c :: cursors, i, tree => do
    let item ← t.deref c
    insertStarts cursors (i + 1) (tree.insertStart item.first i)

def lazyInitialize (it : Iterator K) : Except Stop (Iterator K) :=
  if it.initialized then .ok it
  else do
    let item ← t.deref it.current
    let iterators ← t.cursorsAbove search item.first (t.usedLevels - t.minLevel) t.minLevel
    let tree ← insertStarts t iterators 0 (.new iterators.length)
    return { it with
      initialized := true
      unconsumedCount := iterators.length
      tree := tree.init
      iterators }

def step (it : Iterator K) : Except Stop (Cursor × Iterator K) := do
  let source := it.tree.minSource
  let itMin ← orUndefined it.iterators[source]?
  let level ← t.level itMin.levelNumber
  let next : Cursor := ⟨itMin.levelNumber, itMin.iterator + 1⟩
  let iterators := it.iterators.set source next
  if next.iterator = level.length then
    return (itMin, { it with
      iterators
      tree := it.tree.deleteMinInsert none
      unconsumedCount := it.unconsumedCount - 1 })
  else do
    let item ← orUndefined level[next.iterator]?
    return (itMin, { it with
      iterators
      tree := it.tree.deleteMinInsert (some item.first) })

/-- The inner loop of `advance`, over older items with the same key. -/
def skipEqual (key : K) : ℕ → Iterator K → Except Stop (Iterator K)
  | 0, _ => .error .diverges
  | fuel + 1, it =>
    if it.unconsumedCount = 0 then .ok it
    else do
      let c ← orUndefined it.iterators[it.tree.minSource]?
      let item ← t.deref c
      if item.first = key then do
        let (_, it) ← it.step t
        skipEqual key fuel it
      else return it

def advanceLoop : ℕ → Iterator K → Except Stop (Option (Iterator K))
  | 0, _ => .error .diverges
  | fuel + 1, it => do
    let (tmp, it) ← it.step t
    let item ← t.deref tmp
    let it ← it.skipEqual t item.first (t.total + 1)
    if 0 < it.unconsumedCount ∧ item.deleted then advanceLoop fuel it
    else if item.deleted then return none
    else return some { it with current := tmp }

def advance (it : Iterator K) : Except Stop (Option (Iterator K)) :=
  if it.unconsumedCount = 0 then .ok none else it.advanceLoop t (t.total + 1)

def increment (it : Iterator K) : Except Stop (Option (Iterator K)) := do
  let it ← it.lazyInitialize search t
  it.advance t

end Iterator

namespace DynamicPgm

def scanFrom : ℕ → Option (Iterator K) → Except Stop (List (K × V))
  | 0, _ => .ok []
  | _ + 1, none => .ok []
  | n + 1, some it => do
    let item ← t.deref it.current
    let it ← it.increment search t
    let rest ← scanFrom n it
    return (item.first, item.second) :: rest

def scan (keyLowBound : K) (keyNum : ℕ) : Except Stop (List (K × V)) := do
  let c ← t.lowerBound search keyLowBound
  t.scanFrom search keyNum (c.map .ofCursor)

end DynamicPgm

end LearnedIndexFramework.Pgm
