import LearnedIndexFramework.Metric.Exact

/-! Two equal keys are always noticed: a point that closes a segment begins the next one, so the
order check compares every key with the one before it. -/

namespace LearnedIndexFramework.Metric

open Lib

section Order

variable {lim : Limits} {h : Hull} {x y : ℤ}

theorem addPoint_lastX : (h.addPoint lim x y).2.lastX = x := by
  simp only [Hull.addPoint]
  split
  · rfl
  split
  · rfl
  split
  · rfl
  · exact Hull.absorb_lastX _ _

theorem addPoint_pos (hacc : (h.addPoint lim x y).1 = true) :
    0 < (h.addPoint lim x y).2.pointsInHull := by
  simp only [Hull.addPoint] at hacc ⊢
  split
  · exact Nat.succ_pos _
  split
  · exact Nat.succ_pos _
  split
  · next hne₀ hne₁ hout => simp [hne₀, hne₁, hout] at hacc
  · exact Nat.succ_pos _

theorem addPoint_of_empty (h0 : h.pointsInHull = 0) : (h.addPoint lim x y).1 = true :=
  (addPoint_first (holds_nil h0)).1

end Order

namespace PgmMetric

variable {lim : Limits} {m m' : OptimalPiecewiseLinearModel} {x y : ℤ} {accepted : Bool}

theorem OptimalPiecewiseLinearModel.addPoint_unordered (hpos : 0 < m.pointsInHull)
    (hle : x ≤ m.lastX) : m.addPoint lim x y = .error "Points must be increasing by x." :=
  if_pos ⟨hpos, hle⟩

theorem OptimalPiecewiseLinearModel.reset_addPoint (lim : Limits) (m : OptimalPiecewiseLinearModel)
    (x y : ℤ) : ∃ m', m.reset.addPoint lim x y = .ok (true, m') ∧ 0 < m'.pointsInHull ∧
      m'.lastX = x := by
  have hempty : m.reset.toHull.pointsInHull = 0 := rfl
  have hacc : (m.reset.toHull.addPoint lim x y).1 = true := addPoint_of_empty hempty
  obtain ⟨m', hadd, hhull⟩ := PgmMetric.drivesHull lim m.reset x y (by simp [hempty])
  refine ⟨m', hacc ▸ hadd, ?_, ?_⟩
  · rw [hhull]
    exact addPoint_pos hacc
  · rw [hhull]
    exact addPoint_lastX

theorem metricLoop_increasing (segment : OptimalPiecewiseLinearModel) (metric : ℕ) (mseSum : ℚ)
    (i : ℤ) (keys : List ℤ) (hpos : 0 < segment.pointsInHull) :
    if (segment.lastX :: keys).IsChain (· < ·) then
      ∃ r, metricLoop segment metric mseSum i keys = .ok r
    else metricLoop segment metric mseSum i keys = .error "Points must be increasing by x." := by
  induction keys generalizing segment metric mseSum i with
  | nil =>
    rw [if_pos (List.IsChain.singleton _)]
    exact ⟨_, rfl⟩
  | cons key keys ih =>
    rw [metricLoop]
    rcases Int.lt_or_le segment.lastX key with hlt | hle
    case inr =>
      rw [if_neg fun hchain => (List.isChain_cons_cons.mp hchain).1.not_ge hle,
        OptimalPiecewiseLinearModel.addPoint_unordered hpos hle]
      rfl
    case inl =>
      obtain ⟨m, hadd, hhull⟩ := PgmMetric.drivesHull .uint64 segment key i (by omega)
      have hchain : (segment.lastX :: key :: keys).IsChain (· < ·) ↔
          (key :: keys).IsChain (· < ·) := by
        rw [List.isChain_cons_cons, and_iff_right hlt]
      simp only [hchain, hadd, bind, Except.bind]
      cases hacc : (segment.toHull.addPoint .uint64 key i).1 with
      | true =>
        have hlast : m.lastX = key := hhull ▸ addPoint_lastX
        have hrest := ih m metric mseSum (i + 1) (hhull ▸ addPoint_pos hacc)
        rwa [hlast] at hrest
      | false =>
        obtain ⟨next, hnext, hnextpos, hlast⟩ := m.reset_addPoint .uint64 key i
        simp only [hnext, Bool.false_eq_true, if_false]
        have hrest := ih next (metric + 1) (mseSum + m.getMseMetric) (i + 1) hnextpos
        rwa [hlast] at hrest

theorem metricLoop_of_empty (segment : OptimalPiecewiseLinearModel) (metric : ℕ) (mseSum : ℚ)
    (i : ℤ) (keys : List ℤ) (h0 : segment.pointsInHull = 0) :
    if keys.IsChain (· < ·) then ∃ r, metricLoop segment metric mseSum i keys = .ok r
    else metricLoop segment metric mseSum i keys = .error "Points must be increasing by x." := by
  cases keys with
  | nil =>
    rw [if_pos List.IsChain.nil]
    exact ⟨_, rfl⟩
  | cons key keys =>
    obtain ⟨m, hadd, hhull⟩ := PgmMetric.drivesHull .uint64 segment key i (by omega)
    have hacc : (segment.toHull.addPoint .uint64 key i).1 = true := addPoint_of_empty h0
    have hlast : m.lastX = key := hhull ▸ addPoint_lastX
    have hrest := metricLoop_increasing m metric mseSum (i + 1) keys (hhull ▸ addPoint_pos hacc)
    rw [hlast] at hrest
    simpa only [metricLoop, hadd, hacc, bind, Except.bind, if_true] using hrest

end PgmMetric

open PgmMetric

theorem isChain_insertionSort (keys : List ℤ) :
    (keys.insertionSort (· ≤ ·)).IsChain (· < ·) ↔ keys.Nodup := by
  have hperm := List.perm_insertionSort (· ≤ ·) keys
  rw [List.isChain_iff_pairwise, ← hperm.nodup_iff]
  constructor
  · exact fun hlt => hlt.imp ne_of_lt
  · exact fun hnodup => (List.pairwise_insertionSort (· ≤ ·) keys).imp₂
      (fun _ _ hle hne => lt_of_le_of_ne hle hne) hnodup

theorem PGMMetric_of_nodup {keys : List ℤ} (hnodup : keys.Nodup) (e : ℕ) :
    ∃ r, PGMMetric keys e = .ok r := by
  have hloop := metricLoop_of_empty { epsilon := e } 1 0 0 (keys.insertionSort (· ≤ ·)) rfl
  rw [if_pos ((isChain_insertionSort keys).mpr hnodup)] at hloop
  obtain ⟨r, hr⟩ := hloop
  exact ⟨_, by rw [PGMMetric, hr]; rfl⟩

/-- `PGM_metric` raises the error of `add_point` exactly when two keys are equal; adding a
rejected point again after the reset never raises it. -/
theorem PGMMetric_raises_iff (keys : List ℤ) (e : ℕ) :
    (PGMMetric keys e = .error "Points must be increasing by x." ↔ ¬ keys.Nodup) ∧
      ∀ (lim : Limits) (m : OptimalPiecewiseLinearModel) (x y : ℤ),
        ∃ m', m.reset.addPoint lim x y = .ok (true, m') := by
  refine ⟨⟨fun herr hnodup => ?_, fun hdup => ?_⟩, fun lim m x y => ?_⟩
  · obtain ⟨r, hr⟩ := PGMMetric_of_nodup hnodup e
    cases hr.symm.trans herr
  · have hloop := metricLoop_of_empty { epsilon := e } 1 0 0 (keys.insertionSort (· ≤ ·)) rfl
    rw [if_neg fun hchain => hdup ((isChain_insertionSort keys).mp hchain)] at hloop
    rw [PGMMetric, hloop]
    rfl
  · obtain ⟨m', hadd, -⟩ := m.reset_addPoint lim x y
    exact ⟨m', hadd⟩

end LearnedIndexFramework.Metric
