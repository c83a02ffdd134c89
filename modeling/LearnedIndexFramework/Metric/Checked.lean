import LearnedIndexFramework.Metric.Optimal
import Mathlib.Algebra.Order.Ring.Abs
import Mathlib.Tactic.Linarith

/-! `PGM_metric` with its signed 128-bit arithmetic checked: every difference, product and sum that
is formed in `LargeSigned` either has a value of the type or is an error. -/

namespace LearnedIndexFramework.Metric

open Lib

def int128 (z : ℤ) : Except String ℤ :=
  if -2 ^ 127 ≤ z ∧ z < 2 ^ 127 then .ok z else .error "__int128 overflow"

namespace Checked

def sub (p q : Point) : Except String Slope := do
  let dx ← int128 (p.x - q.x)
  let dy ← int128 (p.y - q.y)
  return ⟨dx, dy⟩

def products (s p : Slope) : Except String (ℤ × ℤ) := do
  let a ← int128 (s.dy * p.dx)
  let b ← int128 (s.dx * p.dy)
  return (a, b)

def lt (s p : Slope) : Except String Bool := do
  let (a, b) ← products s p
  return a < b

def gt (s p : Slope) : Except String Bool := do
  let (a, b) ← products s p
  return a > b

def cross (O A B : Point) : Except String ℤ := do
  let OA ← sub A O
  let OB ← sub B O
  let a ← int128 (OA.dx * OB.dy)
  let b ← int128 (OA.dy * OB.dx)
  int128 (a - b)

def scanExtreme (worse : Slope → Slope → Except String Bool) (p : Point) :
    List Point → Slope → ℕ → ℕ → Except String ℕ
  | [], _, _, bestI => .ok bestI
  | q :: qs, best, i, bestI => do
    let val ← sub q p
    if ← worse val best then return bestI else scanExtreme worse p qs val (i + 1) i

def hullEnd (redundant : ℤ → Bool) (hull : List Point) (start : ℕ) (p : Point) :
    ℕ → Except String ℕ
  | 0 => .ok 0
  | n + 1 =>
    if start + 2 ≤ n + 1 then do
      let c ← cross (hull.getD (n - 1) default) (hull.getD n default) p
      if redundant c then hullEnd redundant hull start p n else return n + 1
    else .ok (n + 1)

def limitUpper (h : Hull) (p1 : Point) : Except String Hull := do
  let min ← sub (h.lower.getD h.lowerStart default) p1
  let minI ← scanExtreme gt p1 (h.lower.drop (h.lowerStart + 1)) min (h.lowerStart + 1) h.lowerStart
  let stop ← hullEnd (fun c => c ≤ 0) h.upper h.upperStart p1 h.upper.length
  return { h with
    rectangle := { h.rectangle with r1 := h.lower.getD minI default, r3 := p1 }
    lowerStart := minI
    upper := h.upper.take stop ++ [p1] }

def limitLower (h : Hull) (p2 : Point) : Except String Hull := do
  let max ← sub (h.upper.getD h.upperStart default) p2
  let maxI ← scanExtreme lt p2 (h.upper.drop (h.upperStart + 1)) max (h.upperStart + 1) h.upperStart
  let stop ← hullEnd (fun c => c ≥ 0) h.lower h.lowerStart p2 h.lower.length
  return { h with
    rectangle := { h.rectangle with r0 := h.upper.getD maxI default, r2 := p2 }
    upperStart := maxI
    lower := h.lower.take stop ++ [p2] }

def outside (h : Hull) (p1 p2 : Point) : Except String Bool := do
  let slope1 ← sub h.rectangle.r2 h.rectangle.r0
  let slope2 ← sub h.rectangle.r3 h.rectangle.r1
  let outsideLine1 ← lt (← sub p1 h.rectangle.r2) slope1
  let outsideLine2 ← gt (← sub p2 h.rectangle.r3) slope2
  return outsideLine1 || outsideLine2

def absorb (h : Hull) (p1 p2 : Point) : Except String Hull := do
  let slope1 ← sub h.rectangle.r2 h.rectangle.r0
  let slope2 ← sub h.rectangle.r3 h.rectangle.r1
  let below ← lt (← sub p1 h.rectangle.r1) slope2
  let h ← if below then limitUpper h p1 else pure h
  let above ← gt (← sub p2 h.rectangle.r0) slope1
  if above then limitLower h p2 else return h

def addPoint (lim : Limits) (h : Hull) (x y : ℤ) : Except String (Bool × Hull) :=
  let h := { h with lastX := x }
  let p1 : Point := ⟨x, bandHi lim h.epsilon y⟩
  let p2 : Point := ⟨x, bandLo lim h.epsilon y⟩
  if h.pointsInHull = 0 ∨ h.pointsInHull = 1 then .ok (h.addPoint lim x y)
  else do
    if ← outside h p1 p2 then return (false, { h with pointsInHull := 0 })
    else
      let h ← absorb h p1 p2
      return (true, { h with pointsInHull := h.pointsInHull + 1 })

def getFloatingPointSegment (h : Hull) (origin : ℤ) : Except String (ℚ × ℤ) := do
  if h.onePoint then return (0, (h.rectangle.r0.y + h.rectangle.r1.y).tdiv 2)
  else
    let slope ← sub h.rectangle.r3 h.rectangle.r1
    let distance ← int128 (origin - h.rectangle.r1.x)
    let interceptN ← int128 (slope.dy * distance)
    let interceptD := slope.dx
    let signed ← int128
      ((if (decide (interceptN < 0)).xor (decide (interceptD < 0)) then -1 else 1) * interceptD)
    let roundingTerm := signed.tdiv 2
    let sum ← int128 (interceptN + roundingTerm)
    let intercept ← int128 (sum.tdiv interceptD + h.rectangle.r1.y)
    return (slope.dy / slope.dx, intercept)

end Checked

namespace PgmMetric

open OptimalPiecewiseLinearModel

namespace Checked

def addPoint (lim : Limits) (m : OptimalPiecewiseLinearModel) (x y : ℤ) :
    Except String (Bool × OptimalPiecewiseLinearModel) :=
  if m.pointsInHull > 0 ∧ x ≤ m.lastX then .error "Points must be increasing by x."
  else do
    let (accepted, h) ← Metric.Checked.addPoint lim m.toHull x y
    return (accepted, {
      toHull := h
      lastRank := y
      points := if accepted then m.points ++ [(x, y)] else m.points })

def getMseMetric (m : OptimalPiecewiseLinearModel) : Except String ℚ := do
  let _ ← Metric.Checked.getFloatingPointSegment m.toHull m.firstX
  return m.getMseMetric

def metricLoop (segment : OptimalPiecewiseLinearModel) (metric : ℕ) (mseSum : ℚ) (i : ℤ) :
    List ℤ → Except String (ℕ × ℚ)
  | [] => .ok (metric, mseSum)
  | key :: keys => do
    let (accepted, segment) ← addPoint .uint64 segment key i
    if accepted then metricLoop segment metric mseSum (i + 1) keys
    else
      let mseSum := mseSum + (← getMseMetric segment)
      let (_, segment) ← addPoint .uint64 segment.reset key i
      metricLoop segment (metric + 1) mseSum (i + 1) keys

def PGMMetric (keys : List ℤ) (errorBound : ℕ) : Except String (ℕ × ℚ) := do
  let (metric, mseSum) ← metricLoop { epsilon := errorBound } 1 0 0 (keys.insertionSort (· ≤ ·))
  return (metric, mseSum / metric)

end Checked

end PgmMetric

/-! ### Bounds -/

structure Point.InRange (p : Point) : Prop where
  x_nonneg : 0 ≤ p.x
  x_lt : p.x < 2 ^ 64
  y_nonneg : 0 ≤ p.y
  y_lt : p.y < 2 ^ 32

structure Slope.Small (s : Slope) : Prop where
  dx : |s.dx| ≤ 2 ^ 64
  dy : |s.dy| ≤ 2 ^ 32

theorem int128_eq_ok {z : ℤ} (h : |z| ≤ 2 ^ 100) : int128 z = .ok z := by
  rw [abs_le] at h
  refine if_pos ⟨?_, ?_⟩
  · omega
  · omega

theorem abs_mul_le {a b : ℤ} (ha : |a| ≤ 2 ^ 64) (hb : |b| ≤ 2 ^ 32) : |a * b| ≤ 2 ^ 96 := by
  rw [abs_mul]
  calc |a| * |b| ≤ 2 ^ 64 * 2 ^ 32 := mul_le_mul ha hb (abs_nonneg b) (by decide)
    _ = 2 ^ 96 := by decide

theorem abs_tdiv_le (a b : ℤ) : |a.tdiv b| ≤ |a| := by
  have hle := Int.natAbs_tdiv_le_natAbs a b
  rw [Int.abs_eq_natAbs, Int.abs_eq_natAbs]
  exact_mod_cast hle

namespace Checked

variable {p q r : Point} {s s' : Slope} {h : Hull} {hull qs : List Point}

theorem sub_eq (hp : p.InRange) (hq : q.InRange) : sub p q = .ok (p - q) ∧ (p - q).Small := by
  have hx : |p.x - q.x| ≤ 2 ^ 64 := by
    rw [abs_le]
    have h0 := hp.x_nonneg
    have h1 := hp.x_lt
    have h2 := hq.x_nonneg
    have h3 := hq.x_lt
    omega
  have hy : |p.y - q.y| ≤ 2 ^ 32 := by
    rw [abs_le]
    have h0 := hp.y_nonneg
    have h1 := hp.y_lt
    have h2 := hq.y_nonneg
    have h3 := hq.y_lt
    omega
  refine ⟨?_, hx, hy⟩
  rw [sub, int128_eq_ok (by omega), int128_eq_ok (by omega)]
  rfl

theorem products_eq (hs : s.Small) (hs' : s'.Small) :
    products s s' = .ok (s.dy * s'.dx, s.dx * s'.dy) := by
  have h1 := abs_mul_le hs'.dx hs.dy
  have h2 := abs_mul_le hs.dx hs'.dy
  rw [mul_comm] at h1
  rw [products, int128_eq_ok (by omega), int128_eq_ok (by omega)]
  rfl

theorem lt_eq (hs : s.Small) (hs' : s'.Small) : lt s s' = .ok (s.lt s') := by
  rw [lt, products_eq hs hs']
  rfl

theorem gt_eq (hs : s.Small) (hs' : s'.Small) : gt s s' = .ok (s.gt s') := by
  rw [gt, products_eq hs hs']
  rfl

theorem cross_eq (hp : p.InRange) (hq : q.InRange) (hr : r.InRange) :
    cross p q r = .ok (Metric.cross p q r) := by
  obtain ⟨hOA, hOA'⟩ := sub_eq hq hp
  obtain ⟨hOB, hOB'⟩ := sub_eq hr hp
  have h1 := abs_mul_le hOA'.dx hOB'.dy
  have h2 := abs_mul_le hOB'.dx hOA'.dy
  rw [mul_comm] at h2
  have h3 : |(q - p).dx * (r - p).dy - (q - p).dy * (r - p).dx| ≤ 2 ^ 100 := by
    rw [abs_le] at h1 h2 ⊢
    omega
  rw [cross, hOA, hOB]
  simp only [bind, Except.bind]
  rw [int128_eq_ok (by omega), int128_eq_ok (by omega)]
  simp only
  rw [int128_eq_ok h3]
  rfl

theorem scanExtreme_eq {worse' : Slope → Slope → Except String Bool} {worse : Slope → Slope → Bool}
    (hworse : ∀ s s', s.Small → s'.Small → worse' s s' = .ok (worse s s')) (hp : p.InRange)
    (hqs : ∀ q ∈ qs, q.InRange) (hs : s.Small) (i bestI : ℕ) :
    scanExtreme worse' p qs s i bestI = .ok (Metric.scanExtreme worse p qs s i bestI) := by
  induction qs generalizing s i bestI with
  | nil => rfl
  | cons q qs ih =>
    rw [List.forall_mem_cons] at hqs
    obtain ⟨hval, hsmall⟩ := sub_eq hqs.1 hp
    rw [scanExtreme, Metric.scanExtreme, hval]
    simp only [bind, Except.bind, hworse _ _ hsmall hs]
    split
    · rfl
    · exact ih hqs.2 hsmall _ _

theorem inRange_getD (hhull : ∀ q ∈ hull, q.InRange) (i : ℕ) : (hull.getD i default).InRange := by
  rw [List.getD_eq_getElem?_getD]
  cases hget : hull[i]? with
  | none => exact ⟨le_rfl, by decide, le_rfl, by decide⟩
  | some q => exact hhull q (List.mem_of_getElem? hget)

theorem hullEnd_eq (redundant : ℤ → Bool) (hhull : ∀ q ∈ hull, q.InRange) (start : ℕ)
    (hp : p.InRange) (n : ℕ) :
    hullEnd redundant hull start p n = .ok (Metric.hullEnd redundant hull start p n) := by
  induction n with
  | zero => rfl
  | succ n ih =>
    rw [hullEnd, Metric.hullEnd]
    by_cases hstart : start + 2 ≤ n + 1
    case pos =>
      rw [if_pos hstart, cross_eq (inRange_getD hhull _) (inRange_getD hhull _) hp]
      simp only [bind, Except.bind, hstart, true_and]
      split
      · exact ih
      · rfl
    case neg => rw [if_neg hstart, if_neg fun hand => hstart hand.1]

structure Bounded (h : Hull) : Prop where
  upper : ∀ q ∈ h.upper, q.InRange
  lower : ∀ q ∈ h.lower, q.InRange
  r0 : h.rectangle.r0.InRange
  r1 : h.rectangle.r1.InRange
  r2 : h.rectangle.r2.InRange
  r3 : h.rectangle.r3.InRange
  firstX_nonneg : 0 ≤ h.firstX
  firstX_lt : h.firstX < 2 ^ 64

theorem forall_take_append {P : Point → Prop} (hhull : ∀ q ∈ hull, P q) (hp : P p) (n : ℕ) :
    ∀ q ∈ hull.take n ++ [p], P q := by
  intro q hq
  rcases List.mem_append.mp hq with hq | hq
  · exact hhull q (List.mem_of_mem_take hq)
  · exact List.mem_singleton.mp hq ▸ hp

theorem limitUpper_eq (hb : Bounded h) (hp : p.InRange) :
    limitUpper h p = .ok (h.limitUpper p) ∧ Bounded (h.limitUpper p) := by
  obtain ⟨hmin, hsmall⟩ := sub_eq (inRange_getD hb.lower h.lowerStart) hp
  constructor
  · rw [limitUpper, hmin]
    simp only [bind, Except.bind]
    rw [scanExtreme_eq (fun _ _ => gt_eq) hp (fun q hq => hb.lower q (List.mem_of_mem_drop hq)) hsmall,
      hullEnd_eq _ hb.upper _ hp]
    rfl
  · exact { hb with
      upper := forall_take_append hb.upper hp _
      r1 := inRange_getD hb.lower _
      r3 := hp }

theorem limitLower_eq (hb : Bounded h) (hp : p.InRange) :
    limitLower h p = .ok (h.limitLower p) ∧ Bounded (h.limitLower p) := by
  obtain ⟨hmax, hsmall⟩ := sub_eq (inRange_getD hb.upper h.upperStart) hp
  constructor
  · rw [limitLower, hmax]
    simp only [bind, Except.bind]
    rw [scanExtreme_eq (fun _ _ => lt_eq) hp (fun q hq => hb.upper q (List.mem_of_mem_drop hq)) hsmall,
      hullEnd_eq _ hb.lower _ hp]
    rfl
  · exact { hb with
      lower := forall_take_append hb.lower hp _
      r0 := inRange_getD hb.upper _
      r2 := hp }

theorem outside_eq (hb : Bounded h) (hp : p.InRange) (hq : q.InRange) :
    outside h p q = .ok (h.outside p q) := by
  obtain ⟨h1, h1'⟩ := sub_eq hb.r2 hb.r0
  obtain ⟨h2, h2'⟩ := sub_eq hb.r3 hb.r1
  obtain ⟨h3, h3'⟩ := sub_eq hp hb.r2
  obtain ⟨h4, h4'⟩ := sub_eq hq hb.r3
  rw [outside, h1, h2, h3, h4]
  simp only [bind, Except.bind, lt_eq h3' h1', gt_eq h4' h2']
  rfl

theorem absorb_eq (hb : Bounded h) (hp : p.InRange) (hq : q.InRange) :
    absorb h p q = .ok (h.absorb p q) ∧ Bounded (h.absorb p q) := by
  obtain ⟨h1, h1'⟩ := sub_eq hb.r2 hb.r0
  obtain ⟨h2, h2'⟩ := sub_eq hb.r3 hb.r1
  obtain ⟨h3, h3'⟩ := sub_eq hp hb.r1
  have hsecond : ∀ h', Bounded h' → (do
      let above ← gt (← sub q h'.rectangle.r0) (h.rectangle.r2 - h.rectangle.r0)
      if above then limitLower h' q else return h') =
        .ok (if (q - h'.rectangle.r0).gt (h.rectangle.r2 - h.rectangle.r0) then h'.limitLower q
          else h') ∧
      Bounded (if (q - h'.rectangle.r0).gt (h.rectangle.r2 - h.rectangle.r0) then h'.limitLower q
        else h') := by
    intro h' hb'
    obtain ⟨h4, h4'⟩ := sub_eq hq hb'.r0
    rw [h4]
    simp only [bind, Except.bind, gt_eq h4' h1']
    split
    · exact limitLower_eq hb' hq
    · exact ⟨rfl, hb'⟩
  rw [absorb, h1, h2, h3]
  simp only [bind, Except.bind, lt_eq h3' h2', Hull.absorb]
  split
  case isTrue =>
    obtain ⟨hupper, hb'⟩ := limitUpper_eq hb hp
    rw [hupper]
    exact hsecond _ hb'
  case isFalse => exact hsecond _ hb

variable {x y : ℤ}

theorem inRange_band (hx : 0 ≤ x ∧ x < 2 ^ 64) (hy : 0 ≤ y ∧ y < 2 ^ 31)
    (heps : 0 ≤ h.epsilon ∧ h.epsilon < 2 ^ 31) :
    Point.InRange ⟨x, bandHi .uint64 h.epsilon y⟩ ∧ Point.InRange ⟨x, bandLo .uint64 h.epsilon y⟩ := by
  obtain ⟨hy0, hy1⟩ := hy
  obtain ⟨heps0, heps1⟩ := heps
  have hhi : 0 ≤ bandHi .uint64 h.epsilon y ∧ bandHi .uint64 h.epsilon y < 2 ^ 32 := by
    simp only [bandHi_eq_min, Limits.uint64]
    omega
  have hlo : 0 ≤ bandLo .uint64 h.epsilon y ∧ bandLo .uint64 h.epsilon y < 2 ^ 32 := by
    simp only [bandLo_eq_max, Limits.uint64]
    omega
  exact ⟨⟨hx.1, hx.2, hhi.1, hhi.2⟩, ⟨hx.1, hx.2, hlo.1, hlo.2⟩⟩

theorem addPoint_eq (hb : Bounded h) (hx : 0 ≤ x ∧ x < 2 ^ 64) (hy : 0 ≤ y ∧ y < 2 ^ 31)
    (heps : 0 ≤ h.epsilon ∧ h.epsilon < 2 ^ 31) :
    addPoint .uint64 h x y = .ok (h.addPoint .uint64 x y) ∧
      Bounded (h.addPoint .uint64 x y).2 := by
  obtain ⟨hp1, hp2⟩ := inRange_band hx hy heps
  have hb' : Bounded { h with lastX := x } :=
    ⟨hb.upper, hb.lower, hb.r0, hb.r1, hb.r2, hb.r3, hb.firstX_nonneg, hb.firstX_lt⟩
  simp only [addPoint, Hull.addPoint]
  by_cases h0 : h.pointsInHull = 0
  case pos =>
    simp only [h0, true_or, if_true]
    refine ⟨trivial, ?_, ?_, hp1, hp2, hb.r2, hb.r3, hx.1, hx.2⟩
    · exact List.forall_mem_singleton.mpr hp1
    · exact List.forall_mem_singleton.mpr hp2
  case neg =>
    by_cases h1 : h.pointsInHull = 1
    case pos =>
      simp only [h1, Nat.one_ne_zero, or_true, if_true, if_false]
      refine ⟨trivial, ?_, ?_, hb.r0, hb.r1, hp2, hp1, hb.firstX_nonneg, hb.firstX_lt⟩
      · exact List.forall_mem_append.mpr ⟨hb.upper, List.forall_mem_singleton.mpr hp1⟩
      · exact List.forall_mem_append.mpr ⟨hb.lower, List.forall_mem_singleton.mpr hp2⟩
    case neg =>
      simp only [h0, h1, or_self, if_false, outside_eq hb' hp1 hp2, bind, Except.bind]
      split
      case isTrue =>
        exact ⟨rfl, hb.upper, hb.lower, hb.r0, hb.r1, hb.r2, hb.r3, hb.firstX_nonneg, hb.firstX_lt⟩
      case isFalse =>
        obtain ⟨habsorb, hb''⟩ := absorb_eq hb' hp1 hp2
        rw [habsorb]
        exact ⟨rfl, hb''.upper, hb''.lower, hb''.r0, hb''.r1, hb''.r2, hb''.r3, hb''.firstX_nonneg,
          hb''.firstX_lt⟩

theorem getFloatingPointSegment_eq (hb : Bounded h) :
    getFloatingPointSegment h h.firstX = .ok (h.getFloatingPointSegment h.firstX) := by
  obtain ⟨hslope, hsmall⟩ := sub_eq hb.r3 hb.r1
  rw [getFloatingPointSegment, Hull.getFloatingPointSegment]
  split
  case isTrue => rfl
  case isFalse =>
    have hdistance : |h.firstX - h.rectangle.r1.x| ≤ 2 ^ 64 := by
      have h0 := hb.firstX_nonneg
      have h1 := hb.firstX_lt
      have h2 := hb.r1.x_nonneg
      have h3 := hb.r1.x_lt
      rw [abs_le]
      omega
    have hn := abs_mul_le hdistance hsmall.dy
    rw [mul_comm] at hn
    generalize hslope' : h.rectangle.r3 - h.rectangle.r1 = slope at hslope hsmall hn ⊢
    generalize hinterceptN : slope.dy * (h.firstX - h.rectangle.r1.x) = n at hn
    have hsigned : |(if (decide (n < 0)).xor (decide (slope.dx < 0)) then -1 else 1) * slope.dx| ≤
        2 ^ 64 := by
      have hdx := hsmall.dx
      split
      · rwa [neg_one_mul, abs_neg]
      · rwa [one_mul]
    generalize hsigned' : (if (decide (n < 0)).xor (decide (slope.dx < 0)) then -1 else 1) *
      slope.dx = d at hsigned
    have hhalf : |d.tdiv 2| ≤ |d| := abs_tdiv_le d 2
    have hsum : |n + d.tdiv 2| ≤ 2 ^ 97 := by
      rw [abs_le] at hn hhalf ⊢
      omega
    have hquotient : |(n + d.tdiv 2).tdiv slope.dx| ≤ 2 ^ 97 := (abs_tdiv_le _ _).trans hsum
    have hintercept : |(n + d.tdiv 2).tdiv slope.dx + h.rectangle.r1.y| ≤ 2 ^ 100 := by
      have h0 := hb.r1.y_nonneg
      have h1 := hb.r1.y_lt
      rw [abs_le] at hquotient ⊢
      omega
    rw [hslope]
    simp only [bind, Except.bind]
    rw [int128_eq_ok (by omega)]
    simp only [hinterceptN]
    rw [int128_eq_ok (by omega)]
    simp only [hsigned']
    rw [int128_eq_ok (by omega)]
    simp only
    rw [int128_eq_ok (by omega)]
    simp only
    rw [int128_eq_ok hintercept]
    rfl

end Checked

namespace PgmMetric

variable {m : OptimalPiecewiseLinearModel} {e : ℕ} {key i : ℤ}

theorem Checked.addPoint_eq (hb : Metric.Checked.Bounded m.toHull) (hkey : 0 ≤ key ∧ key < 2 ^ 64)
    (hi : 0 ≤ i ∧ i < 2 ^ 31) (heps : m.epsilon = e) (he : e < 2 ^ 31) :
    addPoint .uint64 m key i = m.addPoint .uint64 key i ∧
      ∀ accepted m', m.addPoint .uint64 key i = .ok (accepted, m') →
        Metric.Checked.Bounded m'.toHull ∧ m'.epsilon = e := by
  obtain ⟨hadd, hb'⟩ := Metric.Checked.addPoint_eq hb hkey hi (by omega)
  rw [addPoint, OptimalPiecewiseLinearModel.addPoint]
  split
  case isTrue => exact ⟨rfl, fun _ _ h => by cases h⟩
  case isFalse =>
    rw [hadd]
    refine ⟨rfl, fun accepted m' h => ?_⟩
    cases h
    exact ⟨hb', addPoint_epsilon.trans heps⟩

theorem Checked.getMseMetric_eq (hb : Metric.Checked.Bounded m.toHull) :
    getMseMetric m = .ok m.getMseMetric := by
  rw [getMseMetric, Metric.Checked.getFloatingPointSegment_eq hb]
  rfl

theorem bounded_reset (hb : Metric.Checked.Bounded m.toHull) :
    Metric.Checked.Bounded m.reset.toHull :=
  { hb with
    upper := fun _ hq => by cases hq
    lower := fun _ hq => by cases hq }

theorem Checked.metricLoop_eq (metric : ℕ) (mseSum : ℚ) (keys : List ℤ)
    (hb : Metric.Checked.Bounded m.toHull) (hkeys : ∀ key ∈ keys, 0 ≤ key ∧ key < 2 ^ 64)
    (hi : 0 ≤ i) (hlen : i + keys.length ≤ 2 ^ 31) (heps : m.epsilon = e) (he : e < 2 ^ 31) :
    metricLoop m metric mseSum i keys = PgmMetric.metricLoop m metric mseSum i keys := by
  induction keys generalizing m metric mseSum i with
  | nil => rfl
  | cons key keys ih =>
    rw [List.forall_mem_cons] at hkeys
    rw [List.length_cons] at hlen
    have hrank : 0 ≤ i ∧ i < 2 ^ 31 := by omega
    obtain ⟨hadd, hb'⟩ := addPoint_eq hb hkeys.1 hrank heps he
    rw [metricLoop, PgmMetric.metricLoop, hadd]
    cases hresult : m.addPoint .uint64 key i with
    | error e => rfl
    | ok r =>
      obtain ⟨accepted, m'⟩ := r
      obtain ⟨hbm, hepsm⟩ := hb' accepted m' hresult
      cases accepted with
      | true => exact ih metric mseSum hbm hkeys.2 (by omega) (by omega) hepsm
      | false =>
        obtain ⟨hnext, hb''⟩ := addPoint_eq (bounded_reset hbm) hkeys.1 hrank hepsm he
        simp only [bind, Except.bind, Bool.false_eq_true, if_false, getMseMetric_eq hbm, hnext]
        cases hresult' : m'.reset.addPoint .uint64 key i with
        | error e => rfl
        | ok r =>
          obtain ⟨hbr, hepsr⟩ := hb'' r.1 r.2 hresult'
          exact ih _ _ hbr hkeys.2 (by omega) (by omega) hepsr

/-- `PGM_metric` returns as in exact arithmetic when every value that is formed in `__int128` is
checked. -/
theorem PGMMetric_checked (keys : List ℤ) (e : ℕ) (hsorted : keys.Pairwise (· < ·))
    (hkeys : ∀ key ∈ keys, 0 ≤ key ∧ key < 2 ^ 64) (hlen : keys.length < 2 ^ 31) (he : e < 2 ^ 31) :
    ∃ metric mse, Checked.PGMMetric keys e = .ok (metric, mse) ∧
      PGMMetric keys e = .ok (metric, mse) := by
  have hsort : keys.insertionSort (· ≤ ·) = keys :=
    (hsorted.imp fun h => h.le).insertionSort_eq
  have hzero : Point.InRange default := ⟨le_rfl, by decide, le_rfl, by decide⟩
  have hempty : ∀ q ∈ ([] : List Point), q.InRange := by simp
  have hloop := Checked.metricLoop_eq (m := { epsilon := e }) (i := 0) (e := e) 1 0 keys
    ⟨hempty, hempty, hzero, hzero, hzero, hzero, le_rfl, hzero.x_lt⟩ hkeys le_rfl (by omega) rfl he
  obtain ⟨mse, hmetric⟩ := PGMMetric_eq (e := e) hsorted hlen
  refine ⟨_, mse, ?_, hmetric⟩
  rw [← hmetric, Checked.PGMMetric, PGMMetric, hsort, hloop]

theorem PGMMetric_checked_four_keys :
    ∃ metric mse,
      Checked.PGMMetric [0, 1, 2 ^ 64 - 2, 2 ^ 64 - 1] (2 ^ 31 - 1) = .ok (metric, mse) ∧
      PGMMetric [0, 1, 2 ^ 64 - 2, 2 ^ 64 - 1] (2 ^ 31 - 1) = .ok (metric, mse) :=
  PGMMetric_checked [0, 1, 2 ^ 64 - 2, 2 ^ 64 - 1] (2 ^ 31 - 1) (by decide) (by decide) (by decide)
    (by decide)

end PgmMetric

end LearnedIndexFramework.Metric
