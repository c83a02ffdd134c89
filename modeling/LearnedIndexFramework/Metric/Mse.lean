import LearnedIndexFramework.Lib.Fallible
import LearnedIndexFramework.Metric.Segment
import Mathlib.Algebra.BigOperators.Ring.Finset

/-! The mean squared error of a segment, in the integer types of `get_mse_metric`. -/

namespace LearnedIndexFramework.Metric

open Lib

namespace Hull

def predictionError (h : Hull) (p : ℤ × ℤ) : ℤ :=
  truncate (h.product p.1) + (h.getFloatingPointSegment h.firstX).2 - p.2

def meanSquaredError (h : Hull) (pts : List (ℤ × ℤ)) : ℚ :=
  ((pts.map fun p => h.predictionError p * h.predictionError p).sum : ℤ) / pts.length

end Hull

namespace PgmMetric.OptimalPiecewiseLinearModel

/-- `get_mse_metric` step by step: the intercept is narrowed to `uint64_t`, and what is computed
with it wraps around. -/
def getMseMetric64 (m : OptimalPiecewiseLinearModel) : ℚ :=
  let (slope, second) := m.getFloatingPointSegment m.firstX
  let intercept := UInt64.ofInt second
  let sum := m.points.foldl (fun (sum : ℚ) point =>
    let predictPos := UInt64.ofInt (truncate (slope * (point.1 - m.firstX))) + intercept
    let val := predictPos - UInt64.ofInt point.2
    sum + (val * val).toNat) 0
  sum / m.points.length

end PgmMetric.OptimalPiecewiseLinearModel

section

variable {m : PgmMetric.OptimalPiecewiseLinearModel}

theorem getMseMetric64_eq_sum (m : PgmMetric.OptimalPiecewiseLinearModel) :
    m.getMseMetric64 = (m.points.map fun p =>
      ((UInt64.ofInt (m.predictionError p * m.predictionError p)).toNat : ℚ)).sum /
        m.points.length := by
  have hval : ∀ p : ℤ × ℤ, UInt64.ofInt (truncate (m.product p.1)) +
      UInt64.ofInt (m.getFloatingPointSegment m.firstX).2 - UInt64.ofInt p.2 =
      UInt64.ofInt (m.predictionError p) := by
    intro p
    rw [Hull.predictionError, Int.sub_eq_add_neg, UInt64.ofInt_add, UInt64.ofInt_add,
      UInt64.ofInt_neg, UInt64.sub_eq_add_neg]
  rw [List.sum_eq_foldl, List.foldl_map]
  simp only [UInt64.ofInt_mul, ← hval]
  rfl

theorem getMseMetric64_eq (m : PgmMetric.OptimalPiecewiseLinearModel) :
    m.getMseMetric64 = m.getMseMetric := by
  have hsquare : ∀ z : ℤ, ((UInt64.ofInt (z * z)).toNat : ℚ) =
      ((z % 2 ^ 64 * (z % 2 ^ 64) % 2 ^ 64 : ℤ) : ℚ) := by
    intro z
    have hlt := Int.emod_lt_of_pos (z * z) (show (0 : ℤ) < 2 ^ 64 by decide)
    have hge := Int.emod_nonneg (z * z) (show (2 ^ 64 : ℤ) ≠ 0 by decide)
    have hnat : ((UInt64.ofInt (z * z)).toNat : ℤ) = z * z % 2 ^ 64 := by
      rw [UInt64.ofInt, UInt64.toNat_ofNat']
      omega
    rw [← Int.mul_emod, ← hnat, Int.cast_natCast]
  rw [getMseMetric64_eq_sum, List.sum_eq_foldl, List.foldl_map]
  simp only [hsquare]
  rfl

variable {h : Hull} {pts : List (ℤ × ℤ)} {epsilon : ℤ}

theorem abs_predictionError_le {lim : Limits} (hs : Spans lim epsilon h pts) {p : ℤ × ℤ}
    (hp : p ∈ pts) : |h.predictionError p| ≤ epsilon + 1 := by
  obtain ⟨hlo, hhi⟩ := hs.steepest p hp
  have hge := hs.le_predict h.firstX (lt_truncate _) hlo
  have hle := hs.predict_le_succ h.firstX (truncate_lt _) hhi
  have hlo' : p.2 - epsilon ≤ bandLo lim epsilon p.2 := bandLo_eq_max.ge.trans' (le_max_right _ _)
  have hhi' : bandHi lim epsilon p.2 ≤ p.2 + epsilon := bandHi_eq_min.le.trans (min_le_right _ _)
  rw [Hull.predictionError, Hull.product, abs_le]
  omega

theorem abs_truncate_product_lt (hs : Spans .uint64 epsilon h pts) (heps' : epsilon < 2 ^ 31)
    (hranks : ∀ p ∈ pts, 0 ≤ p.2 ∧ p.2 < 2 ^ 31) {p : ℤ × ℤ} (hp : p ∈ pts) :
    |truncate (h.product p.1)| < 2 ^ 63 := by
  have hband : ∀ q ∈ pts, (0 : ℚ) ≤ (lineOf h.rectangle.r1 h.rectangle.r3).eval q.1 ∧
      (lineOf h.rectangle.r1 h.rectangle.r3).eval q.1 ≤ 2 ^ 32 := by
    intro q hq
    obtain ⟨hlo, hhi⟩ := hs.steepest q hq
    have hlo' : (0 : ℤ) ≤ bandLo .uint64 epsilon q.2 := bandLo_eq_max.ge.trans' (le_max_left _ _)
    have hhi' : bandHi .uint64 epsilon q.2 ≤ 2 ^ 32 := by
      have hrank := (hranks q hq).2
      refine bandHi_eq_min.le.trans ((min_le_right _ _).trans ?_)
      omega
    exact ⟨le_trans (by exact_mod_cast hlo') hlo, hhi.trans (by exact_mod_cast hhi')⟩
  obtain ⟨q, rest, rfl⟩ := List.exists_cons_of_ne_nil (List.ne_nil_of_mem hp)
  obtain ⟨h0, h1⟩ := hband p hp
  obtain ⟨h2, h3⟩ := hband q List.mem_cons_self
  have hq : (h.firstX : ℚ) = q.1 := by exact_mod_cast hs.firstX q rfl
  have heval : (lineOf h.rectangle.r1 h.rectangle.r3).eval p.1 = h.product p.1 +
      (lineOf h.rectangle.r1 h.rectangle.r3).eval q.1 := by
    rw [← hq, hs.eval_eq h.firstX]
    rfl
  have hlt := truncate_lt (h.product p.1)
  have hgt := lt_truncate (h.product p.1)
  have hlt' : ((truncate (h.product p.1) : ℤ) : ℚ) < ((2 ^ 63 : ℤ) : ℚ) := by
    push_cast
    linarith
  have hgt' : ((-2 ^ 63 : ℤ) : ℚ) < ((truncate (h.product p.1) : ℤ) : ℚ) := by
    push_cast
    linarith
  rw [abs_lt]
  exact ⟨by exact_mod_cast hgt', by exact_mod_cast hlt'⟩

theorem getMseMetric64_of_spans (hs : Spans .uint64 epsilon m.toHull pts) (hpts : m.points = pts)
    (heps : 0 ≤ epsilon) (heps' : epsilon < 2 ^ 31) :
    m.getMseMetric64 = m.meanSquaredError pts := by
  have hsquare : ∀ p ∈ pts, ((UInt64.ofInt (m.predictionError p * m.predictionError p)).toNat : ℚ) =
      ((m.predictionError p * m.predictionError p : ℤ) : ℚ) := by
    intro p hp
    have hle := abs_le.mp (abs_predictionError_le hs hp)
    have hbound : m.predictionError p * m.predictionError p ≤ 2 ^ 31 * 2 ^ 31 := by
      nlinarith [hle.1, hle.2]
    have hnat := toNat_ofInt_of_lt (mul_self_nonneg (m.predictionError p)) (by omega)
    rw [← Int.cast_natCast, hnat]
  rw [getMseMetric64_eq_sum, hpts, Hull.meanSquaredError, Int.cast_list_sum, List.map_map]
  congr 2
  exact List.map_congr_left hsquare

end

/-! ### Runs -/

namespace PgmMetric

variable {lim : Limits} {m m' : OptimalPiecewiseLinearModel} {pts : List (ℤ × ℤ)} {x y : ℤ}
  {accepted : Bool}

theorem addPoint_eq_ok (hadd : m.addPoint lim x y = .ok (accepted, m')) :
    m.toHull.addPoint lim x y = (accepted, m'.toHull) ∧
      m'.points = if accepted then m.points ++ [(x, y)] else m.points := by
  rw [OptimalPiecewiseLinearModel.addPoint] at hadd
  split at hadd
  case isTrue => cases hadd
  case isFalse =>
    cases hadd
    exact ⟨rfl, rfl⟩

theorem addPoint_rejected {h h' : Hull} (hadd : h.addPoint lim x y = (false, h')) :
    h'.rectangle = h.rectangle ∧ h'.firstX = h.firstX := by
  obtain ⟨hrej, rfl⟩ := Prod.ext_iff.mp hadd
  rw [addPoint_rejected_eq hrej]
  exact ⟨rfl, rfl⟩

theorem points_acceptAll
    (hacc : acceptAll (OptimalPiecewiseLinearModel.addPoint lim) m pts = .ok (some m')) :
    m'.points = m.points ++ pts := by
  induction pts generalizing m with
  | nil =>
    cases hacc
    rw [List.append_nil]
  | cons p pts ih =>
    obtain ⟨x, y⟩ := p
    obtain ⟨⟨accepted, m₁⟩, hadd, hacc⟩ := bind_eq_ok.mp hacc
    cases accepted with
    | false => cases hacc
    | true => rw [ih hacc, (addPoint_eq_ok hadd).2, if_pos rfl, List.append_assoc]; rfl

end PgmMetric

theorem Spans.congr {lim : Limits} {h h' : Hull} {pts : List (ℤ × ℤ)} {epsilon : ℤ}
    (hs : Spans lim epsilon h pts) (hrect : h'.rectangle = h.rectangle)
    (hfirst : h'.firstX = h.firstX) : Spans lim epsilon h' pts :=
  ⟨hfirst ▸ hs.firstX, hrect ▸ hs.lower, hrect ▸ hs.upper, hrect ▸ hs.lt, hrect ▸ hs.steepest⟩

theorem meanSquaredError_congr {h h' : Hull} {pts : List (ℤ × ℤ)}
    (hrect : h'.rectangle = h.rectangle) (hfirst : h'.firstX = h.firstX) :
    h'.meanSquaredError pts = h.meanSquaredError pts := by
  have hsegment : ∀ origin,
      h'.getFloatingPointSegment origin = h.getFloatingPointSegment origin := by
    intro origin
    change ({ h with rectangle := h'.rectangle } : Hull).getFloatingPointSegment origin = _
    rw [hrect]
  simp only [Hull.meanSquaredError, Hull.predictionError, Hull.product, hsegment, hfirst]

/-- The sum of `get_mse_metric` is the one of the squared signed errors, although it is computed
without signs, and the conversion to `int64_t` is in range; also behind a rejected point. -/
theorem getMseMetric64_exact (pts : List (ℤ × ℤ)) (hlen : 2 ≤ pts.length)
    (hsorted : pts.Pairwise (fun p q => p.1 < q.1)) (hranks : ∀ p ∈ pts, 0 ≤ p.2 ∧ p.2 < 2 ^ 31)
    (m m' : PgmMetric.OptimalPiecewiseLinearModel) (heps : 0 ≤ m.epsilon)
    (heps' : m.epsilon < 2 ^ 31)
    (hacc : acceptAll (PgmMetric.OptimalPiecewiseLinearModel.addPoint .uint64) m.reset pts =
      .ok (some m')) :
    (∀ p ∈ pts, |truncate (m'.product p.1)| < 2 ^ 63) ∧
      m'.getMseMetric64 = m'.meanSquaredError pts ∧
      ∀ x y m'', m'.addPoint .uint64 x y = .ok (false, m'') →
        m''.getMseMetric64 = m'.meanSquaredError pts := by
  have hmem : ∀ p ∈ pts, Limits.uint64.Mem p.2 := by
    intro p hp
    obtain ⟨h0, h1⟩ := hranks p hp
    exact ⟨h0, by simp only [Limits.uint64]; omega⟩
  have hs : Spans .uint64 m.epsilon m'.toHull pts :=
    (PgmMetric.drivesHull .uint64).spans (s := m.reset) rfl heps hlen hsorted hmem hacc
  have hpts : m'.points = pts := PgmMetric.points_acceptAll hacc
  refine ⟨fun p hp => abs_truncate_product_lt hs heps' hranks hp,
    getMseMetric64_of_spans hs hpts heps heps', fun x y m'' hrej => ?_⟩
  obtain ⟨hhull, hpts'⟩ := PgmMetric.addPoint_eq_ok hrej
  obtain ⟨hrect, hfirst⟩ := PgmMetric.addPoint_rejected hhull
  rw [getMseMetric64_of_spans (hs.congr hrect hfirst) (hpts'.trans hpts) heps heps',
    meanSquaredError_congr hrect hfirst]

theorem getMseMetric64_exact_three_points :
    ∃ m' m'', acceptAll (PgmMetric.OptimalPiecewiseLinearModel.addPoint .uint64)
        (PgmMetric.OptimalPiecewiseLinearModel.reset { epsilon := 1 })
        [(0, 5), (10, 8), (21, 8)] = .ok (some m') ∧
      m'.addPoint .uint64 22 90 = .ok (false, m'') ∧
      m''.getMseMetric64 = m'.meanSquaredError [(0, 5), (10, 8), (21, 8)] ∧
      m'.meanSquaredError [(0, 5), (10, 8), (21, 8)] = 4 / 3 := by
  refine ⟨_, _, rfl, rfl, (getMseMetric64_exact [(0, 5), (10, 8), (21, 8)] (by decide) (by decide)
    (by decide) { epsilon := 1 } _ (by decide) (by decide) rfl).2.2 22 90 _ rfl, by decide +kernel⟩

end LearnedIndexFramework.Metric
