import LearnedIndexFramework.Lib.Layout
import LearnedIndexFramework.Lib.Words
import Mathlib.Logic.Function.Basic

/-! FAST: the implicit binary search tree over a sorted array, stored as pages of cache lines of
SIMD blocks, and the interface of the suite over it.  Keys are of eight bytes; `none` is an access
out of bounds or a failed assertion. -/

namespace LearnedIndexFramework.Fast

open Lib

def sizeofKey : ℕ := 8

def simdSize : ℕ := 256 / 8 / sizeofKey

def cacheLineSize : ℕ := 64 / sizeofKey

def pageSize : ℕ := 2 ^ 21 / sizeofKey

-- The three sizes are powers of two, for which `__builtin_ctz` is the logarithm.
def simdDepth : ℕ := Nat.log2 simdSize

def cacheLineDepth : ℕ := Nat.log2 cacheLineSize

def pageDepth : ℕ := Nat.log2 pageSize

def pageCacheDepth : ℕ := (pageDepth - 1) / cacheLineDepth * cacheLineDepth

def simdMask : ℕ := 2 ^ (simdSize - 1) - 1

def maxKey : Word := .ofNat (2 ^ 64 - 1)

def median (i j : ℕ) : ℕ := i + (j - 1 - i) / 2

/-! ### Building -/

section Store

variable (l : List Word) (len : ℕ)

def keyAt (idx : ℕ) : Option Word := if idx < len then l[idx]? else some maxKey

-- A state is the array `v` and the next free offset.
def storeSIMDblock (s : List Word × ℕ) (i j levels : ℕ) : Option (List Word × ℕ) :=
  (levelsFrom 1 levels 0).foldlM (fun s level => do
    let levelNum := 2 ^ level
    let chunk := (j - i) / levelNum
    (List.range levelNum).foldlM (fun s cl => do
      let key ← keyAt l len (median (i + cl * chunk) (i + (cl + 1) * chunk - 1))
      let v ← write s.1 s.2 key
      return (v, s.2 + 1)) s) s

def storeCachelineBlock (s : List Word × ℕ) (i j levels : ℕ) : Option (List Word × ℕ) := do
  let r ← (levelsFrom simdDepth levels 0).foldlM (fun s level => do
    let levelNum := 2 ^ level
    let chunk := (j - i) / levelNum
    (List.range levelNum).foldlM (fun s cl =>
      storeSIMDblock l len s (i + cl * chunk) (i + (cl + 1) * chunk)
        (min (levels - level) simdDepth)) s) s
  return (r.1, s.2 + 2 ^ levels)

def storeFASTpage (s : List Word × ℕ) (i j levels : ℕ) : Option (List Word × ℕ) := do
  let r ← (levelsFrom cacheLineDepth levels 0).foldlM (fun s level => do
    let levelNum := 2 ^ level
    let chunk := (j - i) / levelNum
    (List.range levelNum).foldlM (fun s cl =>
      storeCachelineBlock l len s (i + cl * chunk) (i + (cl + 1) * chunk)
        (min cacheLineDepth (levels - level))) s) s
  guard (r.2 ≤ s.2 + 2 ^ (levels + 1))
  return (r.1, s.2 + 2 ^ (levels + 1))

def storePage (depth level : ℕ) (s : List Word × ℕ) (i j : ℕ) : Option (List Word × ℕ) :=
  if level + pageCacheDepth < depth then do
    let r ← storeFASTpage l len s i j pageCacheDepth
    return (r.1, s.2 + pageSize)
  else storeFASTpage l len s i j (depth - level)

def storePages (depth : ℕ) (s : List Word × ℕ) : Option (List Word × ℕ) :=
  let actualLen := 2 ^ depth
  (levelsFrom pageCacheDepth depth 0).foldlM (fun s level => do
    let levelNum := 2 ^ level
    let chunk := actualLen / levelNum
    (List.range levelNum).foldlM (fun s cl =>
      storePage l len depth level s (cl * chunk) ((cl + 1) * chunk)) s) s

end Store

structure FAST where
  depth : ℕ
  len : ℕ
  v : List Word

/-- The number of keys that `buildFAST` allocates. -/
def allocated (depth : ℕ) : ℕ :=
  let depthDivPage := (depth - 1) / pageCacheDepth
  let depthPage := depthDivPage * pageCacheDepth
  (2 ^ depthDivPage - 1) <<< pageDepth + 2 ^ (depthPage + depth - depthPage + 1)

def buildFAST (l : List Word) (len : ℕ) : Option FAST := do
  let depth := Nat.log2 len + 1
  let n := allocated depth
  -- `mmap` gives zeros
  let v := List.replicate n (Word.ofNat 0)
  let s ← storePages l len depth (v, 0)
  guard (s.2 = n)
  return ⟨depth, len, s.1⟩

/-! ### Searching -/

def moveMask : List Bool → ℕ
  | [] => 0
  | lane :: lanes => lane.toNat + 2 * moveMask lanes

def maskToIndex (bitmask : ℕ) : Option ℕ :=
  [0, 9, 1, 2, 9, 9, 9, 3][bitmask &&& simdMask]?

section Search

variable (v : List Word) (key : Word)

def searchSimd (address : ℕ) : Option ℕ := do
  let tree ← (List.range simdSize).mapM fun lane => v[address + lane]?
  maskToIndex (moveMask (tree.map fun x => decide (key > x)))

-- A state of a search is the offset of the current block in its layer and the address of the layer.
def searchScalar (address depth : ℕ) : Option ℕ := do
  let s ← (levelsFrom 1 depth 0).foldlM (fun s childLevel => do
    let x ← v[s.2 + s.1]?
    return (s.1 <<< 1 + (decide (x < key)).toNat, s.2 + 2 ^ childLevel)) (0, address)
  return s.1

/-- The choice in `lower_bound`. -/
def searchBlock (address depth : ℕ) : Option ℕ :=
  if depth = simdDepth then searchSimd v key address else searchScalar v key address depth

def searchCacheline (address cacheDepth : ℕ) : Option ℕ := do
  let s ← (levelsFrom simdDepth cacheDepth 0).foldlM (fun s simdLevel => do
    let depth := min simdDepth (cacheDepth - simdLevel)
    let childV := s.2 + s.1 <<< depth - s.1
    let childIndex ← searchBlock v key childV depth
    return (s.1 <<< depth + childIndex, s.2 + (2 ^ depth - 1) <<< simdLevel)) (0, address)
  return s.1

/-- The loop of `lower_bound` over the cache lines of a page. -/
def searchPage (address pageDepth : ℕ) : Option ℕ := do
  let s ← (levelsFrom cacheLineDepth pageDepth 0).foldlM (fun s cacheLevel => do
    let cacheDepth := min cacheLineDepth (pageDepth - cacheLevel)
    let cacheOffset ← searchCacheline v key (s.2 + s.1 <<< cacheDepth) cacheDepth
    return (s.1 <<< cacheDepth + cacheOffset, s.2 + 2 ^ (cacheLevel + cacheDepth))) (0, address)
  return s.1

end Search

def FAST.lowerBound (index : FAST) (key : Word) : Option ℕ := do
  let s ← (levelsFrom pageCacheDepth index.depth 0).foldlM (fun s pageLevel => do
    let pageLevels := min (index.depth - pageLevel) pageCacheDepth
    let pageActualDepth :=
      if pageLevel + pageCacheDepth < index.depth then pageDepth else pageLevels + 1
    let pageOffset ← searchPage index.v key (s.2 + s.1 <<< pageActualDepth) pageLevels
    return (s.1 <<< pageLevels + pageOffset, s.2 + 2 ^ (pageLevel + pageActualDepth))) (0, 0)
  return min s.1 index.len

/-! ### The interface of the suite -/

section Interface

variable {P : Type}

structure FastInterface (P : Type) where
  index : FAST
  kvs : List (Word × P)

def bulkLoad (keyValue : List (Word × P)) : Option (FastInterface P) := do
  let index ← buildFAST (keyValue.map Prod.fst) keyValue.length
  return ⟨index, keyValue⟩

def FastInterface.get (fast : FastInterface P) (key : Word) (val : P) : Option (Bool × P) := do
  let lb ← fast.index.lowerBound key
  let kv ← fast.kvs[lb]?
  if kv.1 = key then return (true, kv.2) else return (false, val)

def scanFrom (kvs : List (Word × P)) :
    ℕ → ℕ → ℕ → (ℕ → Word × P) → ℕ × (ℕ → Word × P)
  | 0, _, cnt, result => (cnt, result)
  | wanted + 1, lb, cnt, result =>
    if h : lb < kvs.length then
      scanFrom kvs wanted (lb + 1) (cnt + 1) (Function.update result cnt kvs[lb])
    else (cnt, result)

/-- The number of pairs and the cells from `result` on after the call. -/
def FastInterface.scan (fast : FastInterface P) (keyLowBound : Word) (keyNum : ℕ)
    (result : ℕ → Word × P) : Option (ℕ × (ℕ → Word × P)) := do
  let lb ← fast.index.lowerBound keyLowBound
  return scanFrom fast.kvs keyNum lb 0 result

end Interface

end LearnedIndexFramework.Fast
