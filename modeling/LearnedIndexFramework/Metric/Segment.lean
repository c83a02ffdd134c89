import LearnedIndexFramework.Metric.Exact

/-! What the rectangle says about a segment of at least two accepted points: the range of its
slopes, and the line with an integer intercept that positions are predicted with. -/

namespace LearnedIndexFramework.Metric

open Lib

def bandEnd (lim : Limits) (epsilon : ℤ) : Side → ℤ × ℤ → Point
  | .lower, p => ⟨p.1, bandLo lim epsilon p.2⟩
  | .upper, p => ⟨p.1, bandHi lim epsilon p.2⟩

/-! ### Where the points of the hulls come from -/

structure Within (S : Side → Set Point) (h : Hull) : Prop where
  vec : ∀ s, ∀ q ∈ h.vec s, q ∈ S s
  tip : ∀ s, h.tip s ∈ S s.flip

namespace Within

variable {S : Side → Set Point} {h : Hull} {s : Side} {p p1 p2 : Point}

theorem limit (hw : Within S h) (hp : p ∈ S s.flip) : Within S (h.limit s p) := by
  constructor
  · refine s.forall_of_flip ?_ ?_
    · rw [Hull.limit_vec_self]
      exact hw.vec s
    · rw [Hull.limit_vec_flip]
      intro q hq
      rcases List.mem_append.mp hq with hq | hq
      · exact hw.vec _ q (List.mem_of_mem_take hq)
      · exact List.mem_singleton.mp hq ▸ hp
  · refine s.forall_of_flip ?_ ?_
    · rw [Hull.limit_tip_self]
      exact hp
    · rw [Hull.limit_tip_flip]
      exact hw.tip _

theorem absorb (hw : Within S h) (h1 : p1 ∈ S .upper) (h2 : p2 ∈ S .lower) :
    Within S (h.absorb p1 p2) := by
  have hfirst : Within S (if (p1 - h.rectangle.r1).lt (h.rectangle.r3 - h.rectangle.r1) then
      h.limitUpper p1 else h) := by
    split
    · exact hw.limit (s := .lower) h1
    · exact hw
  simp only [Hull.absorb]
  generalize (if (p1 - h.rectangle.r1).lt (h.rectangle.r3 - h.rectangle.r1) then h.limitUpper p1
    else h) = h' at hfirst ⊢
  split
  · exact hfirst.limit (s := .upper) h2
  · exact hfirst

end Within

structure Drawn (lim : Limits) (h : Hull) (pts : List (ℤ × ℤ)) : Prop where
  firstX : ∀ p ∈ pts.head?, h.firstX = p.1
  vec : pts ≠ [] → ∀ s, ∀ q ∈ h.vec s, ∃ p ∈ pts, q = bandEnd lim h.epsilon s p
  tip : 2 ≤ pts.length → ∀ s, ∃ p ∈ pts, h.tip s = bandEnd lim h.epsilon s.flip p

section Drawn

variable {lim : Limits} {h : Hull} {pts : List (ℤ × ℤ)} {x y : ℤ}

theorem drawn_nil : Drawn lim h [] :=
  ⟨by simp, by simp, by simp⟩

@[simp] theorem absorb_firstX (p1 p2 : Point) : (h.absorb p1 p2).firstX = h.firstX := by
  simp only [Hull.absorb]
  split <;> split <;> rfl

theorem Drawn.addPoint_first (h0 : h.pointsInHull = 0) :
    Drawn lim (h.addPoint lim x y).2 [(x, y)] := by
  simp only [Hull.addPoint, h0, if_true]
  refine ⟨by simp, fun _ s q hq => ⟨(x, y), by simp, ?_⟩, by simp⟩
  cases s with
  | lower => exact List.mem_singleton.mp hq
  | upper => exact List.mem_singleton.mp hq

theorem Drawn.addPoint_second {p : ℤ × ℤ} (hd : Drawn lim h [p]) (h1 : h.pointsInHull = 1) :
    Drawn lim (h.addPoint lim x y).2 [p, (x, y)] := by
  have hvec := hd.vec (by simp)
  simp only [Hull.addPoint, h1, Nat.one_ne_zero, if_false, if_true]
  refine ⟨?_, fun _ s q hq => ?_, fun _ s => ⟨(x, y), by simp, ?_⟩⟩
  · simpa using hd.firstX p rfl
  · have hmem : q ∈ h.vec s ∨ q = bandEnd lim h.epsilon s (x, y) := by
      cases s with
      | lower => simpa [Hull.vec, bandEnd] using hq
      | upper => simpa [Hull.vec, bandEnd] using hq
    rcases hmem with hq | rfl
    · obtain ⟨r, hr, rfl⟩ := hvec s q hq
      exact ⟨r, by simpa using Or.inl (List.mem_singleton.mp hr), rfl⟩
    · exact ⟨(x, y), by simp, rfl⟩
  · cases s <;> rfl

theorem Drawn.addPoint_next (hd : Drawn lim h pts) (hlen : 2 ≤ pts.length)
    (hcount : h.pointsInHull = pts.length) (hacc : (h.addPoint lim x y).1 = true) :
    Drawn lim (h.addPoint lim x y).2 (pts ++ [(x, y)]) := by
  have hne : pts ≠ [] := by
    rintro rfl
    simp at hlen
  have hw : Within (fun s => {q | ∃ p ∈ pts ++ [(x, y)], q = bandEnd lim h.epsilon s p})
      { h with lastX := x } := by
    constructor
    · intro s q hq
      obtain ⟨p, hp, hqp⟩ := hd.vec hne s q hq
      exact ⟨p, List.mem_append_left _ hp, hqp⟩
    · intro s
      obtain ⟨p, hp, htip⟩ := hd.tip hlen s
      exact ⟨p, List.mem_append_left _ hp, htip⟩
  have hnew : ∀ s, ∃ p ∈ pts ++ [(x, y)], bandEnd lim h.epsilon s (x, y) =
      bandEnd lim h.epsilon s p := fun s => ⟨(x, y), by simp, rfl⟩
  have hw' := hw.absorb (hnew .upper) (hnew .lower)
  rw [addPoint_of_two_le (hcount ▸ hlen)] at hacc ⊢
  split at hacc
  case isTrue => cases hacc
  case isFalse hout =>
    rw [if_neg hout]
    refine ⟨?_, fun _ s q hq => ?_, fun _ s => ?_⟩
    · intro p hp
      rw [List.head?_append_of_ne_nil _ hne] at hp
      simpa using hd.firstX p hp
    · rw [Hull.absorb_epsilon]
      cases s with
      | lower => exact hw'.vec .lower q hq
      | upper => exact hw'.vec .upper q hq
    · rw [Hull.absorb_epsilon]
      cases s with
      | lower => exact hw'.tip .lower
      | upper => exact hw'.tip .upper

theorem Drawn.addPoint (hd : Drawn lim h pts) (hh : Holds lim h pts)
    (hacc : (h.addPoint lim x y).1 = true) :
    Drawn lim (h.addPoint lim x y).2 (pts ++ [(x, y)]) := by
  match pts, hd, hh with
  | [], _, hh => exact addPoint_first hh.count
  | [p], hd, hh => exact hd.addPoint_second hh.count
  | p :: q :: pts, hd, hh => exact hd.addPoint_next (by simp) hh.count hacc

end Drawn

/-! ### The segment of two or more points -/

structure Spans (lim : Limits) (epsilon : ℤ) (h : Hull) (pts : List (ℤ × ℤ)) : Prop where
  firstX : ∀ p ∈ pts.head?, h.firstX = p.1
  lower : ∃ p ∈ pts, h.rectangle.r1 = bandEnd lim epsilon .lower p
  upper : ∃ p ∈ pts, h.rectangle.r3 = bandEnd lim epsilon .upper p
  lt : h.rectangle.r1.x < h.rectangle.r3.x
  steepest : lineOf h.rectangle.r1 h.rectangle.r3 ∈ family lim epsilon pts

section Segment

variable {lim : Limits} {h : Hull} {pts : List (ℤ × ℤ)} {epsilon : ℤ}

theorem Drawn.spans (hd : Drawn lim h pts) (hh : Holds lim h pts) (hlen : 2 ≤ pts.length) :
    Spans lim h.epsilon h pts := by
  have hfit := hh.fit hlen
  have hne : pts ≠ [] := by
    rintro rfl
    simp at hlen
  refine ⟨hd.firstX, ?_, hd.tip hlen .lower, hfit.anchor_lt_tip .lower, hfit.line_mem .lower⟩
  exact hd.vec hne .lower _ (List.mem_of_mem_drop (hfit.anchor_mem .lower))

namespace Spans

variable (hs : Spans lim epsilon h pts)

include hs

theorem onePoint_eq_false : h.onePoint = false := by
  have hne : h.rectangle.r1 ≠ h.rectangle.r3 := by
    intro heq
    exact absurd hs.lt (heq ▸ lt_irrefl _)
  simp [Hull.onePoint, hne]

theorem slope_eq (origin : ℤ) :
    (h.getFloatingPointSegment origin).1 = (lineOf h.rectangle.r1 h.rectangle.r3).slope := by
  rw [Hull.getFloatingPointSegment, hs.onePoint_eq_false]
  change ((h.rectangle.r3.y - h.rectangle.r1.y : ℤ) : ℚ) / (h.rectangle.r3.x - h.rectangle.r1.x : ℤ)
    = _
  rw [lineOf, Line.through]
  push_cast
  rfl

theorem intercept_eq (origin : ℤ) :
    let n := (h.rectangle.r3.y - h.rectangle.r1.y) * (origin - h.rectangle.r1.x)
    let d := h.rectangle.r3.x - h.rectangle.r1.x
    (h.getFloatingPointSegment origin).2 =
      (n + ((if n < 0 then -1 else 1) * d).tdiv 2).tdiv d + h.rectangle.r1.y := by
  intro n d
  have hd : ¬d < 0 := not_lt.mpr (sub_nonneg.mpr hs.lt.le)
  have hxor : (decide (n < 0)).xor (decide (d < 0)) = decide (n < 0) := by
    rw [decide_eq_false hd, Bool.xor_false]
  rw [Hull.getFloatingPointSegment, hs.onePoint_eq_false, if_neg Bool.false_ne_true]
  change (n + ((if (decide (n < 0)).xor (decide (d < 0)) then -1 else 1) * d).tdiv 2).tdiv d +
    h.rectangle.r1.y = _
  simp only [hxor, decide_eq_true_eq]

theorem abs_intercept_sub_le (origin : ℤ) :
    |((h.getFloatingPointSegment origin).2 : ℚ) -
      (lineOf h.rectangle.r1 h.rectangle.r3).eval origin| ≤ 1 / 2 := by
  have hround := abs_tdiv_round_sub_le
    ((h.rectangle.r3.y - h.rectangle.r1.y) * (origin - h.rectangle.r1.x)) (sub_pos.mpr hs.lt)
  have hline : (lineOf h.rectangle.r1 h.rectangle.r3).eval origin =
      ((h.rectangle.r3.y - h.rectangle.r1.y) * (origin - h.rectangle.r1.x) : ℤ) /
        (h.rectangle.r3.x - h.rectangle.r1.x : ℤ) + h.rectangle.r1.y := by
    simp only [lineOf, Line.through, Line.eval]
    push_cast
    ring
  rw [hs.intercept_eq, hline]
  push_cast at hround ⊢
  rw [add_sub_add_right_eq_sub]
  exact hround

theorem eval_eq (origin x : ℤ) :
    (lineOf h.rectangle.r1 h.rectangle.r3).eval x =
      (h.getFloatingPointSegment origin).1 * (x - origin) +
        (lineOf h.rectangle.r1 h.rectangle.r3).eval origin := by
  rw [hs.slope_eq]
  simp only [Line.eval]
  ring

theorem le_predict (origin : ℤ) {x z v : ℤ}
    (hz : (h.getFloatingPointSegment origin).1 * (x - origin) - 1 < z)
    (hv : (v : ℚ) ≤ (lineOf h.rectangle.r1 h.rectangle.r3).eval x) :
    v - 1 ≤ z + (h.getFloatingPointSegment origin).2 := by
  have hc := (abs_le.mp (hs.abs_intercept_sub_le origin)).1
  rw [hs.eval_eq origin] at hv
  have hlt : (v : ℚ) - 2 < (z + (h.getFloatingPointSegment origin).2 : ℤ) := by
    push_cast
    linarith
  have hlt' : v - 2 < z + (h.getFloatingPointSegment origin).2 := by exact_mod_cast hlt
  omega

theorem predict_le (origin : ℤ) {x z v : ℤ}
    (hz : z ≤ (h.getFloatingPointSegment origin).1 * (x - origin))
    (hv : (lineOf h.rectangle.r1 h.rectangle.r3).eval x ≤ (v : ℚ)) :
    z + (h.getFloatingPointSegment origin).2 ≤ v := by
  have hc := (abs_le.mp (hs.abs_intercept_sub_le origin)).2
  rw [hs.eval_eq origin] at hv
  have hlt : ((z + (h.getFloatingPointSegment origin).2 : ℤ) : ℚ) < (v : ℚ) + 1 := by
    push_cast
    linarith
  have hlt' : z + (h.getFloatingPointSegment origin).2 < v + 1 := by exact_mod_cast hlt
  omega

theorem predict_le_succ (origin : ℤ) {x z v : ℤ}
    (hz : z < (h.getFloatingPointSegment origin).1 * (x - origin) + 1)
    (hv : (lineOf h.rectangle.r1 h.rectangle.r3).eval x ≤ (v : ℚ)) :
    z + (h.getFloatingPointSegment origin).2 ≤ v + 1 := by
  have hc := (abs_le.mp (hs.abs_intercept_sub_le origin)).2
  rw [hs.eval_eq origin] at hv
  have hlt : ((z + (h.getFloatingPointSegment origin).2 : ℤ) : ℚ) < (v : ℚ) + 2 := by
    push_cast
    linarith
  have hlt' : z + (h.getFloatingPointSegment origin).2 < v + 2 := by exact_mod_cast hlt
  omega

end Spans

end Segment

section Copies

variable {σ : Type} {lim : Limits} {hull : σ → Hull}
  {add : σ → ℤ → ℤ → Except String (Bool × σ)} {pts : List (ℤ × ℤ)} {s s' : σ}

theorem DrivesHull.holds_drawn (hadd : DrivesHull lim hull add) (h0 : (hull s).pointsInHull = 0)
    (heps : 0 ≤ (hull s).epsilon) (hsorted : pts.Pairwise (fun p q => p.1 < q.1))
    (hmem : ∀ p ∈ pts, lim.Mem p.2) (hacc : Metric.acceptAll add s pts = .ok (some s')) :
    Holds lim (hull s') pts ∧ (hull s').epsilon = (hull s).epsilon ∧ Drawn lim (hull s') pts := by
  have hempty : Holds lim (hull s) [] := holds_nil h0
  exact hadd.acceptAll_keeps (P := Drawn lim) (fun _ _ _ _ hh hd hacc => hd.addPoint hh hacc) hempty
    drawn_nil heps hsorted hmem hacc

theorem DrivesHull.spans (hadd : DrivesHull lim hull add) (h0 : (hull s).pointsInHull = 0)
    (heps : 0 ≤ (hull s).epsilon) (hlen : 2 ≤ pts.length)
    (hsorted : pts.Pairwise (fun p q => p.1 < q.1)) (hmem : ∀ p ∈ pts, lim.Mem p.2)
    (hacc : Metric.acceptAll add s pts = .ok (some s')) :
    Spans lim (hull s).epsilon (hull s') pts := by
  obtain ⟨hh, heps', hd⟩ := hadd.holds_drawn h0 heps hsorted hmem hacc
  exact heps' ▸ hd.spans hh hlen

end Copies

/-! ### The range of slopes -/

def PassesBands (lim : Limits) (epsilon : ℤ) (pts : List (ℤ × ℤ)) (a b : ℚ) : Prop :=
  ∀ p ∈ pts, ((max lim.lowest (p.2 - epsilon) : ℤ) : ℚ) ≤ a * p.1 + b ∧
    a * p.1 + b ≤ (min lim.max (p.2 + epsilon) : ℤ)

theorem passesBands_iff {lim : Limits} {epsilon : ℤ} {pts : List (ℤ × ℤ)} {L : Line ℚ} :
    PassesBands lim epsilon pts L.slope L.icept ↔ L ∈ family lim epsilon pts := by
  simp only [PassesBands, family, Set.mem_ofPred_eq, Line.eval, bandLo_eq_max, bandHi_eq_min]

structure SlopesBetween (lim : Limits) (epsilon : ℤ) (pts : List (ℤ × ℤ)) (h : Hull) : Prop where
  range : h.getSlopeRange =
    ((h.rectangle.r2 - h.rectangle.r0).toRat, (h.rectangle.r3 - h.rectangle.r1).toRat)
  slope_iff : ∀ a : ℚ, (∃ b, PassesBands lim epsilon pts a b) ↔
    (h.rectangle.r2 - h.rectangle.r0).toRat ≤ a ∧ a ≤ (h.rectangle.r3 - h.rectangle.r1).toRat
  least : ∃ b, PassesBands lim epsilon pts (h.rectangle.r2 - h.rectangle.r0).toRat b ∧
    (h.rectangle.r2 - h.rectangle.r0).toRat * h.rectangle.r0.x + b = h.rectangle.r0.y ∧
    (h.rectangle.r2 - h.rectangle.r0).toRat * h.rectangle.r2.x + b = h.rectangle.r2.y
  greatest : ∃ b, PassesBands lim epsilon pts (h.rectangle.r3 - h.rectangle.r1).toRat b ∧
    (h.rectangle.r3 - h.rectangle.r1).toRat * h.rectangle.r1.x + b = h.rectangle.r1.y ∧
    (h.rectangle.r3 - h.rectangle.r1).toRat * h.rectangle.r3.x + b = h.rectangle.r3.y

theorem toRat_sub (p q : Point) : (q - p).toRat = (lineOf p q).slope := by
  change ((q.y - p.y : ℤ) : ℚ) / (q.x - p.x : ℤ) = _
  rw [lineOf, Line.through]
  push_cast
  rfl

theorem Holds.slopesBetween {lim : Limits} {h : Hull} {pts : List (ℤ × ℤ)} (hh : Holds lim h pts)
    (hlen : 2 ≤ pts.length) : SlopesBetween lim h.epsilon pts h := by
  have hfit := hh.fit hlen
  have hlow := hfit.anchor_lt_tip .lower
  have hup := hfit.anchor_lt_tip .upper
  have hone : h.onePoint = false := by
    have hne : h.rectangle.r1 ≠ h.rectangle.r3 := fun heq => absurd hlow (by
      simp only [Hull.anchor, Hull.tip, heq, lt_irrefl, not_false_eq_true])
    simp [Hull.onePoint, hne]
  refine ⟨?_, fun a => ?_, ⟨(lineOf h.rectangle.r0 h.rectangle.r2).icept, ?_⟩,
    ⟨(lineOf h.rectangle.r1 h.rectangle.r3).icept, ?_⟩⟩
  · rw [Hull.getSlopeRange, hone]
    rfl
  · rw [toRat_sub, toRat_sub]
    refine .trans ?_ hfit.extremes.exists_slope_iff
    constructor
    · rintro ⟨b, hb⟩
      exact ⟨⟨a, b⟩, passesBands_iff.mp hb, rfl⟩
    · rintro ⟨L, hL, rfl⟩
      exact ⟨L.icept, passesBands_iff.mpr hL⟩
  · rw [toRat_sub]
    exact ⟨passesBands_iff.mpr (hfit.line_mem .upper), eval_lineOf_left _ _, eval_lineOf_right hup⟩
  · rw [toRat_sub]
    exact ⟨passesBands_iff.mpr (hfit.line_mem .lower), eval_lineOf_left _ _, eval_lineOf_right hlow⟩

/-- After two or more accepted points since a reset, the slope range of both copies is exact. -/
theorem getSlopeRange_exact (lim : Limits) (pts : List (ℤ × ℤ)) (hlen : 2 ≤ pts.length)
    (hsorted : pts.Pairwise (fun p q => p.1 < q.1)) (hmem : ∀ p ∈ pts, lim.Mem p.2) :
    (∀ m m' : PgmMetric.OptimalPiecewiseLinearModel, 0 ≤ m.epsilon →
      acceptAll (PgmMetric.OptimalPiecewiseLinearModel.addPoint lim) m.reset pts = .ok (some m') →
      SlopesBetween lim m.epsilon pts m'.toHull) ∧
    (∀ h h' : Hull, 0 ≤ h.epsilon →
      acceptAll (Generator.addPoint lim) h.reset pts = .ok (some h') →
      SlopesBetween lim h.epsilon pts h') := by
  constructor
  · intro m m' heps hacc
    obtain ⟨hh, heps', -⟩ := (PgmMetric.drivesHull lim).holds_drawn (s := m.reset) rfl heps hsorted
      hmem hacc
    have hslopes := hh.slopesBetween hlen
    rwa [heps'] at hslopes
  · intro h h' heps hacc
    obtain ⟨hh, heps', -⟩ := (Generator.drivesHull lim).holds_drawn (s := h.reset) rfl heps hsorted
      hmem hacc
    have hslopes := hh.slopesBetween hlen
    rwa [heps'] at hslopes

theorem getSlopeRange_exact_three_points :
    ∃ m', acceptAll (PgmMetric.OptimalPiecewiseLinearModel.addPoint .uint64)
        (PgmMetric.OptimalPiecewiseLinearModel.reset { epsilon := 1 })
        [(0, 5), (10, 8), (20, 9)] = .ok (some m') ∧
      SlopesBetween .uint64 1 [(0, 5), (10, 8), (20, 9)] m'.toHull ∧
      m'.getSlopeRange = (1 / 10, 3 / 10) := by
  refine ⟨_, rfl, (getSlopeRange_exact .uint64 [(0, 5), (10, 8), (20, 9)] (by decide) (by decide)
    (by simp [Limits.Mem, Limits.uint64])).1 { epsilon := 1 } _ (by decide) rfl, by decide +kernel⟩

/-! ### The integer line -/

def Hull.product (h : Hull) (x : ℤ) : ℚ :=
  (h.getFloatingPointSegment h.firstX).1 * (x - h.firstX)

/-- The line with the integer intercept leaves the band of a point by at most one, downwards. -/
structure PredictsWithin (lim : Limits) (epsilon : ℤ) (pts : List (ℤ × ℤ)) (h : Hull) : Prop where
  slope : (h.getFloatingPointSegment h.firstX).1 = (h.rectangle.r3 - h.rectangle.r1).toRat
  band : ∀ p ∈ pts,
    bandLo lim epsilon p.2 - 1 ≤ ⌊h.product p.1⌋ + (h.getFloatingPointSegment h.firstX).2 ∧
      ⌊h.product p.1⌋ + (h.getFloatingPointSegment h.firstX).2 ≤ bandHi lim epsilon p.2
  error : ∀ p ∈ pts,
    |⌊h.product p.1⌋ + (h.getFloatingPointSegment h.firstX).2 - p.2| ≤ epsilon + 1
  truncated : ∀ p ∈ pts, truncate (h.product p.1) = ⌊h.product p.1⌋

section Predict

variable {lim : Limits} {h : Hull} {pts : List (ℤ × ℤ)} {epsilon : ℤ}

theorem firstX_le (hs : Spans lim epsilon h pts) (hsorted : pts.Pairwise (fun p q => p.1 < q.1)) :
    ∀ p ∈ pts, h.firstX ≤ p.1 := by
  cases pts with
  | nil => simp
  | cons q pts =>
    rw [hs.firstX q rfl]
    rw [List.pairwise_cons] at hsorted
    intro p hp
    rcases List.mem_cons.mp hp with rfl | hp
    · exact le_rfl
    · exact (hsorted.1 p hp).le

theorem rank_le_of_lt (hsorted : pts.Pairwise (fun p q => p.1 < q.1))
    (hmono : pts.Pairwise (fun p q => p.2 ≤ q.2)) {p q : ℤ × ℤ} (hp : p ∈ pts) (hq : q ∈ pts)
    (hlt : p.1 < q.1) : p.2 ≤ q.2 := by
  have hpair : pts.Pairwise fun p q => p.1 < q.1 → p.2 ≤ q.2 := by
    refine hmono.imp ?_
    intro p q hy _
    exact hy
  have hflip : pts.Pairwise (flip fun p q => p.1 < q.1 → p.2 ≤ q.2) := by
    refine hsorted.imp ?_
    intro p q hx hx'
    exact absurd hx' hx.asymm
  exact hpair.forall_of_forall_of_flip (fun r _ hx => absurd hx (lt_irrefl _)) hflip hp hq hlt

theorem slope_nonneg (hs : Spans lim epsilon h pts) (heps : 0 ≤ epsilon)
    (hsorted : pts.Pairwise (fun p q => p.1 < q.1))
    (hmono : pts.Pairwise (fun p q => p.2 ≤ q.2)) (hmem : ∀ p ∈ pts, lim.Mem p.2) (origin : ℤ) :
    0 ≤ (h.getFloatingPointSegment origin).1 := by
  obtain ⟨p, hp, hr1⟩ := hs.lower
  obtain ⟨q, hq, hr3⟩ := hs.upper
  have hlt := hs.lt
  rw [hr1, hr3] at hlt
  have hrank := rank_le_of_lt hsorted hmono hp hq hlt
  have hlo := bandLo_le heps (hmem p hp)
  have hhi := le_bandHi heps (hmem q hq)
  rw [hs.slope_eq, ← toRat_sub, hr1, hr3]
  refine div_nonneg (Int.cast_nonneg ?_) (Int.cast_nonneg (sub_nonneg.mpr hlt.le))
  change 0 ≤ bandHi lim epsilon q.2 - bandLo lim epsilon p.2
  omega

theorem predictsWithin (hs : Spans lim epsilon h pts) (heps : 0 ≤ epsilon)
    (hsorted : pts.Pairwise (fun p q => p.1 < q.1))
    (hmono : pts.Pairwise (fun p q => p.2 ≤ q.2)) (hmem : ∀ p ∈ pts, lim.Mem p.2) :
    PredictsWithin lim epsilon pts h := by
  have hband : ∀ p ∈ pts,
      bandLo lim epsilon p.2 - 1 ≤ ⌊h.product p.1⌋ + (h.getFloatingPointSegment h.firstX).2 ∧
        ⌊h.product p.1⌋ + (h.getFloatingPointSegment h.firstX).2 ≤ bandHi lim epsilon p.2 := by
    intro p hp
    obtain ⟨hlo, hhi⟩ := hs.steepest p hp
    exact ⟨hs.le_predict _ (Int.sub_one_lt_floor _) hlo, hs.predict_le _ (Int.floor_le _) hhi⟩
  refine ⟨by rw [hs.slope_eq, toRat_sub], hband, fun p hp => ?_, fun p hp => ?_⟩
  · obtain ⟨hlo, hhi⟩ := hband p hp
    have hlo' : p.2 - epsilon ≤ bandLo lim epsilon p.2 := bandLo_eq_max.ge.trans' (le_max_right _ _)
    have hhi' : bandHi lim epsilon p.2 ≤ p.2 + epsilon := bandHi_eq_min.le.trans (min_le_right _ _)
    rw [abs_le]
    omega
  · have hx : (0 : ℚ) ≤ p.1 - h.firstX := by
      exact_mod_cast sub_nonneg.mpr (firstX_le hs hsorted p hp)
    exact if_pos (mul_nonneg (slope_nonneg hs heps hsorted hmono hmem _) hx)

end Predict

/-- The integer line of a segment of two or more points keeps the error bound, up to one, in both
copies. -/
theorem getFloatingPointSegment_within (lim : Limits) (pts : List (ℤ × ℤ)) (hlen : 2 ≤ pts.length)
    (hsorted : pts.Pairwise (fun p q => p.1 < q.1))
    (hmono : pts.Pairwise (fun p q => p.2 ≤ q.2)) (hmem : ∀ p ∈ pts, lim.Mem p.2) :
    (∀ m m' : PgmMetric.OptimalPiecewiseLinearModel, 0 ≤ m.epsilon →
      acceptAll (PgmMetric.OptimalPiecewiseLinearModel.addPoint lim) m.reset pts = .ok (some m') →
      PredictsWithin lim m.epsilon pts m'.toHull) ∧
    (∀ h h' : Hull, 0 ≤ h.epsilon →
      acceptAll (Generator.addPoint lim) h.reset pts = .ok (some h') →
      PredictsWithin lim h.epsilon pts h') := by
  constructor
  · intro m m' heps hacc
    exact predictsWithin ((PgmMetric.drivesHull lim).spans (s := m.reset) rfl heps hlen hsorted hmem
      hacc) heps hsorted hmono hmem
  · intro h h' heps hacc
    exact predictsWithin ((Generator.drivesHull lim).spans (s := h.reset) rfl heps hlen hsorted hmem
      hacc) heps hsorted hmono hmem

theorem getFloatingPointSegment_within_three_points :
    ∃ m', acceptAll (PgmMetric.OptimalPiecewiseLinearModel.addPoint .uint64)
        (PgmMetric.OptimalPiecewiseLinearModel.reset { epsilon := 1 })
        [(0, 5), (10, 8), (21, 8)] = .ok (some m') ∧
      PredictsWithin .uint64 1 [(0, 5), (10, 8), (21, 8)] m'.toHull := by
  refine ⟨_, rfl, (getFloatingPointSegment_within .uint64 [(0, 5), (10, 8), (21, 8)] (by decide)
    (by decide) (by decide) (by simp [Limits.Mem, Limits.uint64])).1 { epsilon := 1 } _
    (by decide) rfl⟩

end LearnedIndexFramework.Metric
