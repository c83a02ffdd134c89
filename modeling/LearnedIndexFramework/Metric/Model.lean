import Mathlib.Data.List.Sort
import LearnedIndexFramework.Lib.Machine

/-! The one-pass piecewise linear segmentation of `pgm_metric.h` and of the copy in
`datasets/generator.cpp`.  Both copies drive the same hull state; they differ in what they
record beside it and in the exception text. -/

namespace LearnedIndexFramework.Metric

open Lib

/-- A difference of two points, formed in `LargeSigned` (`__int128` for 64-bit keys). -/
structure Slope where
  dx : ℤ
  dy : ℤ
  deriving DecidableEq

def Slope.lt (s p : Slope) : Bool := s.dy * p.dx < s.dx * p.dy
def Slope.gt (s p : Slope) : Bool := s.dy * p.dx > s.dx * p.dy

/-- `operator long double`, without its rounding. -/
def Slope.toRat (s : Slope) : ℚ := s.dy / s.dx

structure Point where
  x : ℤ
  y : ℤ
  deriving DecidableEq, Inhabited

instance : HSub Point Point Slope := ⟨fun p q => ⟨p.x - q.x, p.y - q.y⟩⟩

def cross (O A B : Point) : ℤ :=
  let OA := A - O
  let OB := B - O
  OA.dx * OB.dy - OA.dy * OB.dx

structure Limits where
  lowest : ℤ
  max : ℤ
  lowest_lt_max : lowest < max

def Limits.uint64 : Limits := ⟨0, 2 ^ 64 - 1, by decide⟩
def Limits.int64 : Limits := ⟨-2 ^ 63, 2 ^ 63 - 1, by decide⟩

def Limits.Mem (lim : Limits) (y : ℤ) : Prop := lim.lowest ≤ y ∧ y ≤ lim.max

def bandHi (lim : Limits) (epsilon y : ℤ) : ℤ :=
  if y ≥ lim.max - epsilon then lim.max else y + epsilon

def bandLo (lim : Limits) (epsilon y : ℤ) : ℤ :=
  if y ≤ lim.lowest + epsilon then lim.lowest else y - epsilon

structure Rectangle where
  r0 : Point
  r1 : Point
  r2 : Point
  r3 : Point
  deriving DecidableEq, Inhabited

/-- The fields both copies of `OptimalPiecewiseLinearModel` share. -/
structure Hull where
  epsilon : ℤ
  lower : List Point := []
  upper : List Point := []
  firstX : ℤ := 0
  lastX : ℤ := 0
  lowerStart : ℕ := 0
  upperStart : ℕ := 0
  pointsInHull : ℕ := 0
  rectangle : Rectangle := default

/-- The tangent scan `for (i = start + 1; i < hull.size(); i++)` over the points still
ahead; it breaks at the first slope that is `worse` than the best one so far. -/
def scanExtreme (worse : Slope → Slope → Bool) (p : Point) :
    List Point → Slope → ℕ → ℕ → ℕ
  | [], _, _, bestI => bestI
  | q :: qs, best, i, bestI =>
    let val := q - p
    if worse val best then bestI else scanExtreme worse p qs val (i + 1) i

/-- The loop `for (; end >= start + 2 && …; --end)` that finds where the hull is cut before
`p` is appended. -/
def hullEnd (redundant : ℤ → Bool) (hull : List Point) (start : ℕ) (p : Point) : ℕ → ℕ
  | 0 => 0
  | n + 1 =>
    if start + 2 ≤ n + 1 ∧ redundant (cross (hull.getD (n - 1) default) (hull.getD n default) p)
    then hullEnd redundant hull start p n
    else n + 1

namespace Hull

def limitUpper (h : Hull) (p1 : Point) : Hull :=
  let minI := scanExtreme Slope.gt p1 (h.lower.drop (h.lowerStart + 1))
    (h.lower.getD h.lowerStart default - p1) (h.lowerStart + 1) h.lowerStart
  let stop := hullEnd (fun c => c ≤ 0) h.upper h.upperStart p1 h.upper.length
  { h with
    rectangle := { h.rectangle with r1 := h.lower.getD minI default, r3 := p1 }
    lowerStart := minI
    upper := h.upper.take stop ++ [p1] }

def limitLower (h : Hull) (p2 : Point) : Hull :=
  let maxI := scanExtreme Slope.lt p2 (h.upper.drop (h.upperStart + 1))
    (h.upper.getD h.upperStart default - p2) (h.upperStart + 1) h.upperStart
  let stop := hullEnd (fun c => c ≥ 0) h.lower h.lowerStart p2 h.lower.length
  { h with
    rectangle := { h.rectangle with r0 := h.upper.getD maxI default, r2 := p2 }
    upperStart := maxI
    lower := h.lower.take stop ++ [p2] }

def outside (h : Hull) (p1 p2 : Point) : Bool :=
  let slope1 := h.rectangle.r2 - h.rectangle.r0
  let slope2 := h.rectangle.r3 - h.rectangle.r1
  (p1 - h.rectangle.r2).lt slope1 || (p2 - h.rectangle.r3).gt slope2

def absorb (h : Hull) (p1 p2 : Point) : Hull :=
  let slope1 := h.rectangle.r2 - h.rectangle.r0
  let slope2 := h.rectangle.r3 - h.rectangle.r1
  let h := if (p1 - h.rectangle.r1).lt slope2 then h.limitUpper p1 else h
  if (p2 - h.rectangle.r0).gt slope1 then h.limitLower p2 else h

/-- The body of `add_point` after the order check. -/
def addPoint (lim : Limits) (h : Hull) (x y : ℤ) : Bool × Hull :=
  let h := { h with lastX := x }
  let p1 : Point := ⟨x, bandHi lim h.epsilon y⟩
  let p2 : Point := ⟨x, bandLo lim h.epsilon y⟩
  if h.pointsInHull = 0 then
    (true, { h with
      firstX := x
      rectangle := { h.rectangle with r0 := p1, r1 := p2 }
      upper := [p1]
      lower := [p2]
      upperStart := 0
      lowerStart := 0
      pointsInHull := h.pointsInHull + 1 })
  else if h.pointsInHull = 1 then
    (true, { h with
      rectangle := { h.rectangle with r2 := p2, r3 := p1 }
      upper := h.upper ++ [p1]
      lower := h.lower ++ [p2]
      pointsInHull := h.pointsInHull + 1 })
  else if h.outside p1 p2 then (false, { h with pointsInHull := 0 })
  else
    let h := h.absorb p1 p2
    (true, { h with pointsInHull := h.pointsInHull + 1 })

def reset (h : Hull) : Hull := { h with pointsInHull := 0, lower := [], upper := [] }

def onePoint (h : Hull) : Bool :=
  h.rectangle.r0 = h.rectangle.r2 && h.rectangle.r1 = h.rectangle.r3

/-- The integral branch: the exact slope of the steepest line and its rounded intercept at
`origin`.  Integer division truncates towards zero. -/
def getFloatingPointSegment (h : Hull) (origin : ℤ) : ℚ × ℤ :=
  if h.onePoint then (0, (h.rectangle.r0.y + h.rectangle.r1.y).tdiv 2)
  else
    let slope := h.rectangle.r3 - h.rectangle.r1
    let interceptN := slope.dy * (origin - h.rectangle.r1.x)
    let interceptD := slope.dx
    let roundingTerm :=
      ((if (decide (interceptN < 0)).xor (decide (interceptD < 0)) then -1 else 1) *
        interceptD).tdiv 2
    let intercept := (interceptN + roundingTerm).tdiv interceptD + h.rectangle.r1.y
    (slope.dy / slope.dx, intercept)

def getSlopeRange (h : Hull) : ℚ × ℚ :=
  if h.onePoint then (0, 1)
  else
    let minSlope := h.rectangle.r2 - h.rectangle.r0
    let maxSlope := h.rectangle.r3 - h.rectangle.r1
    (minSlope.toRat, maxSlope.toRat)

end Hull

namespace PgmMetric

structure OptimalPiecewiseLinearModel extends Hull where
  lastRank : ℤ := 0
  points : List (ℤ × ℤ) := []

namespace OptimalPiecewiseLinearModel

def addPoint (lim : Limits) (m : OptimalPiecewiseLinearModel) (x y : ℤ) :
    Except String (Bool × OptimalPiecewiseLinearModel) :=
  if m.pointsInHull > 0 ∧ x ≤ m.lastX then .error "Points must be increasing by x."
  else
    let (accepted, h) := m.toHull.addPoint lim x y
    .ok (accepted, {
      toHull := h
      lastRank := y
      points := if accepted then m.points ++ [(x, y)] else m.points })

def reset (m : OptimalPiecewiseLinearModel) : OptimalPiecewiseLinearModel :=
  { m with toHull := m.toHull.reset, points := [] }

/-- The predicted position and the error are `uint64_t`, so each squared error is reduced
modulo `2 ^ 64` before it is added to the sum. -/
def getMseMetric (m : OptimalPiecewiseLinearModel) : ℚ :=
  let (slope, intercept) := m.getFloatingPointSegment m.firstX
  let sum := m.points.foldl (fun (sum : ℚ) point =>
    let val := (truncate (slope * (point.1 - m.firstX)) + intercept - point.2) % 2 ^ 64
    sum + (val * val % 2 ^ 64 : ℤ)) 0
  sum / m.points.length

end OptimalPiecewiseLinearModel

def metricLoop (segment : OptimalPiecewiseLinearModel) (metric : ℕ) (mseSum : ℚ) (i : ℤ) :
    List ℤ → Except String (ℕ × ℚ)
  | [] => .ok (metric, mseSum)
  | key :: keys => do
    let (accepted, segment) ← segment.addPoint .uint64 key i
    if accepted then metricLoop segment metric mseSum (i + 1) keys
    else
      let mseSum := mseSum + segment.getMseMetric
      let (_, segment) ← segment.reset.addPoint .uint64 key i
      metricLoop segment (metric + 1) mseSum (i + 1) keys

/-- The returned metric, paired with the value stored through the `mse` pointer when one is
given.  `error_bound` is at least zero, so its conversion to `uint64_t` keeps its value. -/
def PGMMetric (keys : List ℤ) (errorBound : ℕ) : Except String (ℕ × ℚ) := do
  let (metric, mseSum) ← metricLoop { epsilon := errorBound } 1 0 0 (keys.insertionSort (· ≤ ·))
  return (metric, mseSum / metric)

end PgmMetric

namespace Generator

/-- `add_point` of `datasets/generator.cpp`. -/
def addPoint (lim : Limits) (h : Hull) (x y : ℤ) : Except String (Bool × Hull) :=
  if h.pointsInHull > 0 ∧ x ≤ h.lastX then .error "ADD: Points must be increasing by x."
  else .ok (h.addPoint lim x y)

def checkPoint (lim : Limits) (h : Hull) (x y : ℤ) : Bool × Hull :=
  let p1 : Point := ⟨x, bandHi lim h.epsilon y⟩
  let p2 : Point := ⟨x, bandLo lim h.epsilon y⟩
  if h.pointsInHull = 0 then (true, h)
  else if h.pointsInHull = 1 then (true, h)
  else if h.outside p1 p2 then (false, { h with pointsInHull := 0 })
  else (true, h)

structure Pass where
  pla : Hull
  generatedValue : ℕ

def Pass.start (epsilon : ℤ) (key : ℤ) : Except String Pass := do
  let (_, pla) ← addPoint .int64 (Hull.reset { epsilon }) key 1
  return { pla, generatedValue := 1 }

/-- `if (!pla.check_point(..)) { ++value; pla.reset(); } pla.add_point(..)`. -/
def Pass.step (pass : Pass) (key i : ℤ) : Except String Pass := do
  let (fits, pla) := checkPoint .int64 pass.pla key i
  let value := if fits then pass.generatedValue else pass.generatedValue + 1
  let (_, pla) ← addPoint .int64 (if fits then pla else pla.reset) key i
  return { pla, generatedValue := value }

/-- The loop over `data[i..num]`; the local and the global model advance together. -/
def verificationLoop (localPass globalPass : Pass) (i : ℤ) :
    List ℤ → Except String (ℕ × ℕ)
  | [] => .ok (localPass.generatedValue, globalPass.generatedValue)
  | key :: keys => do
    let localPass ← localPass.step key i
    let globalPass ← globalPass.step key i
    verificationLoop localPass globalPass (i + 1) keys

/-- The verification pass of `dataGenerator` over `data[1..num]`: the generated local and
global values.  `data` holds `uint64_t`, the models take `int64_t`. -/
def verificationPass (localEpsilon globalEpsilon : ℕ) (key : ℤ) (keys : List ℤ) :
    Except String (ℕ × ℕ) := do
  let localPass ← Pass.start localEpsilon (wrapInt64 key)
  let globalPass ← Pass.start globalEpsilon (wrapInt64 key)
  verificationLoop localPass globalPass 2 (keys.map wrapInt64)

end Generator

end LearnedIndexFramework.Metric
