import LearnedIndexFramework.Lib.Machine
import LearnedIndexFramework.Lib.Rounding
import LearnedIndexFramework.Metric.Canonical
import LearnedIndexFramework.Metric.Optimal
import LearnedIndexFramework.Pgm.Model

/-! The static PGM index: a piecewise linear mapping from keys to positions, indexed in turn by
mappings from the keys of its segments to theirs.  Slopes are single-precision. -/

namespace LearnedIndexFramework.Pgm

open Lib LearnedIndexFramework.Metric

def maxKey : ℤ := 2 ^ 64 - 1

section Segmentation

def addPoint (opt : Hull) (x y : ℤ) : Except Stop (Bool × Hull) :=
  if opt.pointsInHull > 0 ∧ x ≤ opt.lastX then
    .error (.throws "Points must be increasing by x.")
  else .ok (opt.addPoint .uint64 x y)

/-- The loop of `make_segmentation` behind the point at `x₀`. -/
def segmentationLoop (opt : Hull) (x₀ : ℤ) :
    List (ℤ × ℤ) → Except Stop (List Generator.CanonicalSegment)
  | [] => .ok [Generator.getSegment opt]
  | (x, y) :: points =>
    if x = x₀ then segmentationLoop opt x₀ points
    else do
      let (accepted, opt) ← addPoint opt x y
      if accepted then segmentationLoop opt x points
      else do
        let (_, next) ← addPoint opt x y
        let rest ← segmentationLoop next x points
        return Generator.getSegment opt :: rest

def makeSegmentation (epsilon : ℕ) :
    List (ℤ × ℤ) → Except Stop (List Generator.CanonicalSegment)
  | [] => .ok []
  | (x, y) :: points => do
    let (_, opt) ← addPoint { epsilon } x y
    segmentationLoop opt x points

def skipSame (x₀ : ℤ) : List (ℤ × ℤ) → List (ℤ × ℤ)
  | [] => []
  | (x, y) :: points => if x = x₀ then skipSame x₀ points else (x, y) :: points

def chunk (parallelism : ℕ) (points : List (ℤ × ℤ)) (i : ℕ) : List (ℤ × ℤ) :=
  let n := points.length
  let chunkSize := n / parallelism
  let first := i * chunkSize
  let last := if i = parallelism - 1 then n else first + chunkSize
  let part := (points.take last).drop first
  match points[first - 1]? with
  | some (x, _) => if 0 < first then skipSame x part else part
  | none => part

def makeSegmentationPar (parallelism epsilon : ℕ) (points : List (ℤ × ℤ)) :
    Except Stop (List Generator.CanonicalSegment) :=
  if parallelism = 1 ∨ points.length < 1 <<< 15 then makeSegmentation epsilon points
  else do
    let results ← (List.range parallelism).mapM fun i =>
      makeSegmentation epsilon (chunk parallelism points i)
    return results.flatten

end Segmentation

structure Segment where
  key : ℤ
  slope : ℚ
  intercept : ℤ
  deriving DecidableEq

namespace Segment

def sentinel (n : ℕ) : Segment := ⟨maxKey, 0, wrapInt n⟩

/-- `Segment(cs)`: the slope is a `long double` first, and then a `float`. -/
def ofCanonical (cs : Generator.CanonicalSegment) : Except Stop Segment :=
  let key := cs.first
  let (slope, intercept) := cs.getFloatingPointSegment key
  if 2 ^ 31 - 1 < intercept then
    .error (.throws "Change the type of Segment::intercept to int64")
  else .ok ⟨key, roundTo 24 (roundTo 64 slope), wrapInt intercept⟩

variable (s : Segment) (k : ℤ)

def product : ℚ := roundTo 24 (s.slope * roundTo 24 ((k - s.key) % 2 ^ 64 : ℤ))

/-- `operator()`.  A product that no `int64_t` holds is not converted. -/
def predict : Except Stop ℕ :=
  if 2 ^ 63 ≤ s.product k then .error .undefined
  else .ok (truncate (s.product k) + s.intercept).toNat

end Segment

/-- `PGMIndex<K, 16>` -/
structure StaticPgm where
  n : ℕ
  firstKey : ℤ
  segments : List Segment
  levelsOffsets : List ℕ
  deriving DecidableEq

structure ApproxPos where
  pos : ℕ
  lo : ℕ
  hi : ℕ
  deriving DecidableEq

namespace StaticPgm

def epsilon : ℕ := 16

def epsilonRecursive : ℕ := 4

section Build

def inFun : Option ℤ → ℤ → List ℤ → List (ℤ × ℤ)
  | _, _, [] => []
  | _, i, [x] => [(x, i)]
  | before, i, x :: next :: rest =>
    let flag := before = some x ∧ x ≠ next ∧ (x + 1) % 2 ^ 64 ≠ next
    (if flag then (x + 1) % 2 ^ 64 else x, i) :: inFun (some x) (i + 1) (next :: rest)

variable (parallelism : ℕ)

/-- `build_level`, with the new segments behind the old ones and their number without the
sentinel.  The keys of the index end with `lastKey`. -/
def buildLevel (epsilon : ℕ) (lastKey : Option ℤ) (points : List (ℤ × ℤ))
    (segments : List Segment) : Except Stop (List Segment × ℕ) := do
  let lastN := points.length
  let canonical ← makeSegmentationPar parallelism epsilon points
  let level ← canonical.mapM Segment.ofCanonical
  let segments := segments ++ level
  let back ← orUndefined segments.getLast?
  if back.slope = 0 ∧ 1 < lastN then
    let key ← orUndefined lastKey
    let extra : Segment := ⟨(key + 1) % 2 ^ 64, 0, wrapInt lastN⟩
    return (segments ++ [extra] ++ [.sentinel lastN], level.length + 1)
  else return (segments ++ [.sentinel lastN], level.length)

def buildUpper (lastKey : Option ℤ) :
    ℕ → ℕ → List Segment → List ℕ → Except Stop (List Segment × List ℕ)
  | 0, _, _, _ => .error .diverges
  | fuel + 1, lastN, segments, levelsOffsets =>
    if 1 < lastN then do
      let offset ← orUndefined levelsOffsets[levelsOffsets.length - 2]?
      let points := ranked 0 (((segments.drop offset).take lastN).map Segment.key)
      let (segments, lastN) ← buildLevel parallelism epsilonRecursive lastKey points segments
      let back ← orUndefined levelsOffsets.getLast?
      buildUpper lastKey fuel lastN segments (levelsOffsets ++ [back + lastN + 1])
    else .ok (segments, levelsOffsets)

/-- `PGMIndex(first, last)` -/
def build (keys : List ℤ) : Except Stop StaticPgm :=
  let n := keys.length
  match keys with
  | [] => .ok ⟨n, 0, [], []⟩
  | firstKey :: _ => do
    let lastN := if keys.getLast? = some maxKey then n - 1 else n
    let lastKey := (keys.take lastN).getLast?
    let (segments, lastN) ←
      buildLevel parallelism epsilon lastKey ((inFun none 0 keys).take lastN) []
    let (segments, levelsOffsets) ←
      buildUpper parallelism lastKey (n + 1) lastN segments [0, lastN + 1]
    return ⟨n, firstKey, segments, levelsOffsets⟩

end Build

variable (t : StaticPgm) (key : ℤ)

/-- `std::min<size_t>((*it)(key), std::next(it)->intercept)` -/
def approximate (it : ℕ) : Except Stop ℕ := do
  let segment ← orUndefined t.segments[it]?
  let next ← orUndefined t.segments[it + 1]?
  let pos ← segment.predict key
  return min pos (next.intercept % 2 ^ 64).toNat

def linearSearch : ℕ → ℕ → Except Stop ℕ
  | 0, _ => .error .undefined
  | fuel + 1, lo => do
    let next ← orUndefined t.segments[lo + 1]?
    if next.key ≤ key then linearSearch fuel (lo + 1) else return lo

/-- The loop of `segment_for_key` over the levels below `l`. -/
def descend : ℕ → ℕ → Except Stop ℕ
  | 0, it => .ok it
  | l + 1, it => do
    let levelBegin ← orUndefined t.levelsOffsets[l]?
    let pos ← t.approximate key it
    let lo := levelBegin + (pos - (epsilonRecursive + 1))
    let it ← t.linearSearch key t.segments.length lo
    descend l it

def segmentForKey : Except Stop ℕ :=
  if t.levelsOffsets.length < 2 then .error .undefined
  else do
    let it ← orUndefined t.levelsOffsets[t.levelsOffsets.length - 2]?
    t.descend key (t.levelsOffsets.length - 2) it

def search : Except Stop ApproxPos := do
  let k := max t.firstKey key
  let it ← t.segmentForKey k
  let pos ← t.approximate k it
  let hi := if t.n ≤ pos + epsilon + 2 then t.n else pos + epsilon + 2
  return { pos, lo := pos - epsilon, hi }

end StaticPgm

end LearnedIndexFramework.Pgm
