import LearnedIndexFramework.Lib.Fallible
import LearnedIndexFramework.Metric.Duplicates

/-! The segment object of `datasets/generator.cpp`, and the flattened copy that reads the live
rectangle instead.  They differ where a single point was accepted: two corners are then left from
what the model processed before. -/

namespace LearnedIndexFramework.Metric

open Lib

namespace Generator

structure CanonicalSegment where
  rectangle : Rectangle
  first : ℤ

namespace CanonicalSegment

def onePoint (c : CanonicalSegment) : Bool :=
  c.rectangle.r0 = c.rectangle.r2 && c.rectangle.r1 = c.rectangle.r3

def getFloatingPointSegment (c : CanonicalSegment) (origin : ℤ) : ℚ × ℤ :=
  if c.onePoint then (0, (c.rectangle.r0.y + c.rectangle.r1.y).tdiv 2)
  else
    let slope := c.rectangle.r3 - c.rectangle.r1
    let interceptN := slope.dy * (origin - c.rectangle.r1.x)
    let interceptD := slope.dx
    let roundingTerm :=
      ((if (decide (interceptN < 0)).xor (decide (interceptD < 0)) then -1 else 1) *
        interceptD).tdiv 2
    let intercept := (interceptN + roundingTerm).tdiv interceptD + c.rectangle.r1.y
    (slope.dy / slope.dx, intercept)

def getSlopeRange (c : CanonicalSegment) : ℚ × ℚ :=
  if c.onePoint then (0, 1)
  else
    let minSlope := c.rectangle.r2 - c.rectangle.r0
    let maxSlope := c.rectangle.r3 - c.rectangle.r1
    (minSlope.toRat, maxSlope.toRat)

end CanonicalSegment

def getSegment (h : Hull) : CanonicalSegment :=
  if h.pointsInHull = 1 then
    { rectangle := ⟨h.rectangle.r0, h.rectangle.r1, h.rectangle.r0, h.rectangle.r1⟩
      first := h.firstX }
  else { rectangle := h.rectangle, first := h.firstX }

end Generator

open PgmMetric

def AgreesWith (m : OptimalPiecewiseLinearModel) (c : Generator.CanonicalSegment) : Prop :=
  m.getSlopeRange = c.getSlopeRange ∧
    ∀ origin, m.getFloatingPointSegment origin = c.getFloatingPointSegment origin

section Rectangles

variable {m : OptimalPiecewiseLinearModel} {c : Generator.CanonicalSegment}

theorem agreesWith_of_rectangle (hrect : m.rectangle = c.rectangle) : AgreesWith m c := by
  have hone : m.onePoint = c.onePoint := by
    rw [Hull.onePoint, Generator.CanonicalSegment.onePoint, hrect]
  refine ⟨?_, fun origin => ?_⟩
  · rw [Hull.getSlopeRange, Generator.CanonicalSegment.getSlopeRange, hone, hrect]
  · rw [Hull.getFloatingPointSegment, Generator.CanonicalSegment.getFloatingPointSegment, hone,
      hrect]

theorem onePoint_of_agreesWith (hagree : AgreesWith m c) (hone : c.onePoint = true) :
    m.onePoint = true := by
  by_contra hnot
  obtain ⟨hrange, hline⟩ := hagree
  have hmax := congrArg Prod.snd hrange
  have hslope := congrArg Prod.fst (hline 0)
  simp only [Hull.getSlopeRange, Generator.CanonicalSegment.getSlopeRange, hone, hnot,
    if_false, if_true] at hmax
  simp only [Hull.getFloatingPointSegment, Generator.CanonicalSegment.getFloatingPointSegment, hone,
    hnot, if_false, if_true] at hslope
  exact one_ne_zero (hmax.symm.trans hslope)

theorem agreesWith_onePoint_iff (hone : c.onePoint = true) (h0 : c.rectangle.r0 = m.rectangle.r0)
    (h1 : c.rectangle.r1 = m.rectangle.r1) : AgreesWith m c ↔ m.onePoint = true := by
  refine ⟨fun h => onePoint_of_agreesWith h hone, fun hm => agreesWith_of_rectangle ?_⟩
  simp only [Generator.CanonicalSegment.onePoint, Hull.onePoint, Bool.and_eq_true,
    decide_eq_true_eq] at hone hm
  have hm' : m.rectangle = ⟨m.rectangle.r0, m.rectangle.r1, m.rectangle.r2, m.rectangle.r3⟩ := rfl
  have hc' : c.rectangle = ⟨c.rectangle.r0, c.rectangle.r1, c.rectangle.r2, c.rectangle.r3⟩ := rfl
  rw [hm', hc', ← hm.1, ← hm.2, ← hone.1, ← hone.2, h0, h1]

end Rectangles

section Runs

variable {lim : Limits} {h g : Hull} {x y : ℤ}

theorem addPoint_first_congr (heps : h.epsilon = g.epsilon) (hh : h.pointsInHull = 0)
    (hg : g.pointsInHull = 0) : (g.addPoint lim x y).2 = { (h.addPoint lim x y).2 with
      rectangle := { (h.addPoint lim x y).2.rectangle with
        r2 := g.rectangle.r2
        r3 := g.rectangle.r3 } } := by
  simp [Hull.addPoint, hh, hg, heps]

theorem addPoint_second_congr (h1 : h.pointsInHull = 1) (r2 r3 : Point) :
    ({ h with rectangle := { h.rectangle with r2, r3 } } : Hull).addPoint lim x y =
      h.addPoint lim x y := by
  simp [Hull.addPoint, h1]

theorem acceptAll_of_empty (h0 : h.pointsInHull = 0) (p : ℤ × ℤ) (pts : List (ℤ × ℤ)) :
    acceptAll (Generator.addPoint lim) h (p :: pts) =
      acceptAll (Generator.addPoint lim) (h.addPoint lim p.1 p.2).2 pts := by
  have hacc : (h.addPoint lim p.1 p.2).1 = true := addPoint_of_empty h0
  have hord : ¬ (h.pointsInHull > 0 ∧ p.1 ≤ h.lastX) := by omega
  change (Generator.addPoint lim h p.1 p.2 >>= fun r =>
    if r.1 then acceptAll (Generator.addPoint lim) r.2 pts else pure none) = _
  rw [Generator.addPoint, if_neg hord]
  exact if_pos hacc

theorem acceptAll_congr (heps : h.epsilon = g.epsilon) (hh : h.pointsInHull = 0)
    (hg : g.pointsInHull = 0) (p q : ℤ × ℤ) (pts : List (ℤ × ℤ)) :
    acceptAll (Generator.addPoint lim) g (p :: q :: pts) =
      acceptAll (Generator.addPoint lim) h (p :: q :: pts) := by
  have h1 : (h.addPoint lim p.1 p.2).2.pointsInHull = 1 := by simp [Hull.addPoint, hh]
  rw [acceptAll_of_empty hg, acceptAll_of_empty hh, addPoint_first_congr heps hh hg]
  simp only [acceptAll, Generator.addPoint, addPoint_second_congr h1]

variable {m m' : OptimalPiecewiseLinearModel} {pts : List (ℤ × ℤ)} {accepted : Bool}

theorem addPoint_toHull (hadd : m.addPoint lim x y = .ok (accepted, m')) :
    Generator.addPoint lim m.toHull x y = .ok (accepted, m'.toHull) := by
  rw [OptimalPiecewiseLinearModel.addPoint] at hadd
  split at hadd
  · cases hadd
  · next hord =>
    cases hadd
    exact if_neg hord

theorem acceptAll_toHull (hacc : acceptAll (OptimalPiecewiseLinearModel.addPoint lim) m pts =
      .ok (some m')) :
    acceptAll (Generator.addPoint lim) m.toHull pts = .ok (some m'.toHull) := by
  induction pts generalizing m with
  | nil =>
    obtain rfl : m = m' := by simpa [acceptAll] using hacc
    rfl
  | cons p pts ih =>
    obtain ⟨⟨accepted, next⟩, hadd, hrest⟩ := bind_eq_ok.mp hacc
    cases accepted with
    | false => cases hrest
    | true =>
      rw [acceptAll, addPoint_toHull hadd]
      exact ih hrest

theorem addPoint_count (hadd : Generator.addPoint lim h x y = .ok (true, g)) :
    g.pointsInHull = h.pointsInHull + 1 := by
  rw [Generator.addPoint] at hadd
  split at hadd
  · cases hadd
  · simp only [Hull.addPoint, Except.ok.injEq] at hadd
    split at hadd
    · obtain ⟨-, rfl⟩ := Prod.ext_iff.mp hadd
      rfl
    split at hadd
    · obtain ⟨-, rfl⟩ := Prod.ext_iff.mp hadd
      rfl
    split at hadd
    · cases hadd
    · obtain ⟨-, rfl⟩ := Prod.ext_iff.mp hadd
      simp

theorem acceptAll_count (hacc : acceptAll (Generator.addPoint lim) h pts = .ok (some g)) :
    g.pointsInHull = h.pointsInHull + pts.length := by
  induction pts generalizing h with
  | nil =>
    obtain rfl : h = g := by simpa [acceptAll] using hacc
    rfl
  | cons p pts ih =>
    obtain ⟨⟨accepted, next⟩, hadd, hrest⟩ := bind_eq_ok.mp hacc
    cases accepted with
    | false => cases hrest
    | true =>
      rw [ih hrest, addPoint_count hadd, List.length_cons]
      omega

end Runs

section Segments

variable {lim : Limits} {m m' : OptimalPiecewiseLinearModel} {h : Hull}

theorem agreesWith_single_iff (heps : m.epsilon = h.epsilon) (hm : m.pointsInHull = 0)
    (hh : h.pointsInHull = 0) (p : ℤ × ℤ) (hm' : m'.toHull = (m.toHull.addPoint lim p.1 p.2).2) :
    AgreesWith m' (Generator.getSegment (h.addPoint lim p.1 p.2).2) ↔
      m.rectangle.r2 = ⟨p.1, bandHi lim m.epsilon p.2⟩ ∧
        m.rectangle.r3 = ⟨p.1, bandLo lim m.epsilon p.2⟩ := by
  have hone : m'.pointsInHull = 1 := by
    rw [hm']
    simp [Hull.addPoint, hm]
  have hrect : m'.rectangle = ⟨⟨p.1, bandHi lim m.epsilon p.2⟩, ⟨p.1, bandLo lim m.epsilon p.2⟩,
      m.rectangle.r2, m.rectangle.r3⟩ := by
    rw [hm']
    simp [Hull.addPoint, hm]
  have hsegment : (Generator.getSegment (h.addPoint lim p.1 p.2).2).rectangle =
      ⟨m'.rectangle.r0, m'.rectangle.r1, m'.rectangle.r0, m'.rectangle.r1⟩ := by
    rw [addPoint_first_congr heps hm hh, ← hm', Generator.getSegment]
    exact if_pos hone ▸ rfl
  rw [agreesWith_onePoint_iff (by simp [Generator.CanonicalSegment.onePoint, hsegment])
    (by rw [hsegment]) (by rw [hsegment])]
  simp only [Hull.onePoint, hrect, Bool.and_eq_true, decide_eq_true_eq]
  exact and_congr eq_comm eq_comm

theorem agreesWith_getSegment (hne : m.pointsInHull ≠ 1) :
    AgreesWith m (Generator.getSegment m.toHull) := by
  refine agreesWith_of_rectangle ?_
  rw [Generator.getSegment, if_neg hne]

end Segments

/-- The flattened model agrees with the canonical segment of the other copy when two points were
accepted since the last reset.  After a single one it reads two corners that were there before,
and agrees only where these happen to be the ends of its band. -/
theorem flattened_agrees_iff (lim : Limits) (m m' : OptimalPiecewiseLinearModel) (h : Hull)
    (pts : List (ℤ × ℤ)) (hne : pts ≠ []) (heps : m.epsilon = h.epsilon)
    (hacc : acceptAll (OptimalPiecewiseLinearModel.addPoint lim) m.reset pts = .ok (some m')) :
    ∃ h', acceptAll (Generator.addPoint lim) h.reset pts = .ok (some h') ∧
      (AgreesWith m' (Generator.getSegment h') ↔ 2 ≤ pts.length ∨
        ∀ p ∈ pts, m.rectangle.r2 = ⟨p.1, bandHi lim m.epsilon p.2⟩ ∧
          m.rectangle.r3 = ⟨p.1, bandLo lim m.epsilon p.2⟩) := by
  have hhull := acceptAll_toHull hacc
  have heps' : m.reset.toHull.epsilon = h.reset.epsilon := heps
  have hm : m.reset.toHull.pointsInHull = 0 := rfl
  have hh : h.reset.pointsInHull = 0 := rfl
  match pts, hne with
  | [p], _ =>
    rw [acceptAll_of_empty hm] at hhull
    have hm' : m'.toHull = (m.reset.toHull.addPoint lim p.1 p.2).2 :=
      (Option.some.inj (Except.ok.inj hhull)).symm
    refine ⟨(h.reset.addPoint lim p.1 p.2).2, acceptAll_of_empty hh p [], ?_⟩
    rw [agreesWith_single_iff heps' hm hh p hm']
    simp [OptimalPiecewiseLinearModel.reset, Hull.reset]
  | p :: q :: pts, _ =>
    have hcount := acceptAll_count hhull
    rw [hm, List.length_cons, List.length_cons] at hcount
    refine ⟨m'.toHull, (acceptAll_congr heps' hm hh p q pts).trans hhull,
      iff_of_true (agreesWith_getSegment (by omega)) (.inl (by simp))⟩

theorem flattened_agrees_three_points : ∃ m' : OptimalPiecewiseLinearModel, ∃ h' : Hull,
    acceptAll (OptimalPiecewiseLinearModel.addPoint .uint64)
      (OptimalPiecewiseLinearModel.reset
        { epsilon := 1, lastX := 2, rectangle := ⟨⟨1, 1⟩, ⟨1, 0⟩, ⟨2, 0⟩, ⟨2, 2⟩⟩ })
      [(10, 2), (20, 3), (30, 4)] = .ok (some m') ∧
    acceptAll (Generator.addPoint .uint64) (Hull.reset { epsilon := 1 })
      [(10, 2), (20, 3), (30, 4)] = .ok (some h') ∧
    AgreesWith m' (Generator.getSegment h') := by
  obtain ⟨h', hacc, hiff⟩ := flattened_agrees_iff .uint64
    { epsilon := 1, lastX := 2, rectangle := ⟨⟨1, 1⟩, ⟨1, 0⟩, ⟨2, 0⟩, ⟨2, 2⟩⟩ } _ { epsilon := 1 }
    [(10, 2), (20, 3), (30, 4)] (by decide) rfl rfl
  exact ⟨_, h', rfl, hacc, hiff.mpr (.inl (by decide))⟩

theorem flattened_single_point : ∃ m' : OptimalPiecewiseLinearModel, ∃ h' : Hull,
    acceptAll (OptimalPiecewiseLinearModel.addPoint .uint64)
      (OptimalPiecewiseLinearModel.reset { epsilon := 1 }) [(5, 10)] = .ok (some m') ∧
    acceptAll (Generator.addPoint .uint64) (Hull.reset { epsilon := 1 }) [(5, 10)] =
      .ok (some h') ∧
    m'.getSlopeRange = (11 / 5, 9 / 5) ∧ (Generator.getSegment h').getSlopeRange = (0, 1) ∧
    ¬ AgreesWith m' (Generator.getSegment h') := by
  refine ⟨_, _, rfl, rfl, by decide +kernel, by decide +kernel, fun hagree => ?_⟩
  have hrange := hagree.1
  revert hrange
  decide +kernel

end LearnedIndexFramework.Metric
