import LearnedIndexFramework.Metric.Mse
import LearnedIndexFramework.Metric.Optimal
import Mathlib.Algebra.Order.BigOperators.Group.List
import Mathlib.Algebra.Order.Floor.Semifield
import Mathlib.Tactic.Positivity

/-! The segments behind the count of `PGM_metric`: how long they are, how their number depends on
the error bound, and which of them the mean error is taken over. -/

namespace LearnedIndexFramework.Metric

open Lib

namespace PgmMetric

/-- The segments that the loop of `PGM_metric` closes, as they are when their error is taken, and
the one it ends with. -/
def segments (segment : OptimalPiecewiseLinearModel) (i : ℤ) :
    List ℤ → Except String (List OptimalPiecewiseLinearModel × OptimalPiecewiseLinearModel)
  | [] => .ok ([], segment)
  | key :: keys => do
    let (accepted, segment) ← segment.addPoint .uint64 key i
    if accepted then segments segment (i + 1) keys
    else
      let (_, next) ← segment.reset.addPoint .uint64 key i
      let (closed, last) ← segments next (i + 1) keys
      return (segment :: closed, last)

theorem metricLoop_eq_segments (segment : OptimalPiecewiseLinearModel) (metric : ℕ) (mseSum : ℚ)
    (i : ℤ) (keys : List ℤ) :
    metricLoop segment metric mseSum i keys = (segments segment i keys).map fun r =>
      (metric + r.1.length, mseSum + (r.1.map OptimalPiecewiseLinearModel.getMseMetric).sum) := by
  induction keys generalizing segment metric mseSum i with
  | nil => simp [metricLoop, segments, Except.map]
  | cons key keys ih =>
    rw [metricLoop, segments]
    cases hadd : segment.addPoint .uint64 key i with
    | error e => rfl
    | ok r =>
      obtain ⟨accepted, segment'⟩ := r
      cases accepted with
      | true => exact ih segment' metric mseSum (i + 1)
      | false =>
        simp only [bind, Except.bind, Bool.false_eq_true, if_false]
        cases hnext : segment'.reset.addPoint .uint64 key i with
        | error e => rfl
        | ok r =>
          obtain ⟨-, next⟩ := r
          simp only [ih]
          cases hrest : segments next (i + 1) keys with
          | error e => rfl
          | ok r =>
            simp only [Except.map, List.length_cons, List.map_cons, List.sum_cons, pure, Except.pure]
            refine congrArg Except.ok (Prod.ext ?_ (add_assoc _ _ _))
            change metric + 1 + r.1.length = metric + (r.1.length + 1)
            omega

end PgmMetric

open PgmMetric

structure IsSegment (e : ℕ) (m : OptimalPiecewiseLinearModel) (pts : List (ℤ × ℤ)) : Prop where
  holds : Holds .uint64 m.toHull pts
  drawn : Drawn .uint64 m.toHull pts
  points : m.points = pts
  epsilon : m.epsilon = e

structure IsClosed (e : ℕ) (input : List (ℤ × ℤ)) (m : OptimalPiecewiseLinearModel) : Prop where
  length : 2 ≤ m.points.length
  spans : Spans .uint64 e m.toHull m.points
  next : ∃ p, m.points ++ [p] <:+: input ∧ ¬FitsBands .uint64 e (m.points ++ [p])

section Step

variable {e : ℕ} {m : OptimalPiecewiseLinearModel} {cur : List (ℤ × ℤ)} {key i : ℤ}

theorem IsSegment.nil {m : OptimalPiecewiseLinearModel} (h0 : m.pointsInHull = 0)
    (hpoints : m.points = []) (heps : m.epsilon = e) : IsSegment e m [] :=
  ⟨holds_nil h0, drawn_nil, hpoints, heps⟩

theorem two_le_pointsInHull {lim : Limits} {h : Hull} {x y : ℤ}
    (hrej : (h.addPoint lim x y).1 = false) : 2 ≤ h.pointsInHull := by
  simp only [Hull.addPoint] at hrej
  split at hrej
  · cases hrej
  split at hrej
  · cases hrej
  omega

theorem IsSegment.addPoint (hs : IsSegment e m cur) (hlt : ∀ p ∈ cur, p.1 < key)
    (hmem : ∀ p ∈ cur, Limits.uint64.Mem p.2) (hi : Limits.uint64.Mem i) :
    (FitsBands .uint64 e (cur ++ [(key, i)]) ∧ ∃ m', m.addPoint .uint64 key i = .ok (true, m') ∧
        IsSegment e m' (cur ++ [(key, i)])) ∨
      (¬FitsBands .uint64 e (cur ++ [(key, i)]) ∧ ∃ m' next,
        m.addPoint .uint64 key i = .ok (false, m') ∧ m'.points = cur ∧ 2 ≤ cur.length ∧
        Spans .uint64 e m'.toHull cur ∧ m'.reset.addPoint .uint64 key i = .ok (true, next) ∧
        IsSegment e next [(key, i)]) := by
  have heps : 0 ≤ m.epsilon := hs.epsilon ▸ Int.natCast_nonneg e
  obtain ⟨m', hadd, hhull⟩ := PgmMetric.drivesHull .uint64 m key i (hs.holds.not_unordered hlt)
  obtain ⟨hiff, hholds⟩ := hs.holds.addPoint heps hlt hmem hi
  rw [hs.epsilon, ← fitsBands_iff] at hiff
  have heps' : m'.epsilon = e := by rw [hhull, addPoint_epsilon, hs.epsilon]
  have hpoints := (addPoint_eq_ok hadd).2
  rw [hs.points] at hpoints
  by_cases hfits : FitsBands .uint64 e (cur ++ [(key, i)])
  case pos =>
    have hacc := hiff.mpr hfits
    rw [hacc] at hadd hpoints
    refine .inl ⟨hfits, m', hadd, ?_, ?_, hpoints, heps'⟩
    · exact hhull ▸ hholds hacc
    · exact hhull ▸ hs.drawn.addPoint hs.holds hacc
  case neg =>
    have hrej : (m.toHull.addPoint .uint64 key i).1 = false := by
      rw [← Bool.not_eq_true, hiff]
      exact hfits
    rw [hrej] at hadd hpoints
    have hlen : 2 ≤ cur.length := hs.holds.count ▸ two_le_pointsInHull hrej
    obtain ⟨hrect, hfirst⟩ := addPoint_rejected (addPoint_eq_ok hadd).1
    have hspans : Spans .uint64 e m'.toHull cur :=
      hs.epsilon ▸ (hs.drawn.spans hs.holds hlen).congr hrect hfirst
    obtain ⟨next, hnext, hnexthull⟩ := PgmMetric.drivesHull .uint64 m'.reset key i (by
      simp [OptimalPiecewiseLinearModel.reset, Hull.reset])
    have hempty : Holds .uint64 m'.reset.toHull [] := holds_nil rfl
    have hfirst' := addPoint_first (x := key) (y := i) hempty
    rw [hfirst'.1] at hnext
    refine .inr ⟨hfits, m', next, hadd, hpoints, hlen, hspans, hnext, ?_⟩
    refine ⟨hnexthull ▸ hfirst'.2, hnexthull ▸ Drawn.addPoint_first rfl, ?_, ?_⟩
    · exact (addPoint_eq_ok hnext).2
    · rw [hnexthull, addPoint_epsilon]
      exact heps'

end Step

theorem segments_spec {e : ℕ} {cur : List (ℤ × ℤ)} {i : ℤ} (m : OptimalPiecewiseLinearModel)
    (keys : List ℤ) (hs : IsSegment e m cur)
    (hsorted : (cur ++ ranked i keys).Pairwise (fun p q => p.1 < q.1))
    (hmem : ∀ p ∈ cur ++ ranked i keys, Limits.uint64.Mem p.2) :
    ∃ closed last run, segments m i keys = .ok (closed, last) ∧
      closed.length = greedyBreaks (FitsBands .uint64 e) cur (ranked i keys) ∧
      (closed.map OptimalPiecewiseLinearModel.points).flatten ++ run = cur ++ ranked i keys ∧
      (∀ c ∈ closed, IsClosed e (cur ++ ranked i keys) c) ∧ IsSegment e last run ∧
      (run = [] → cur = [] ∧ keys = []) := by
  induction keys generalizing cur i m with
  | nil => exact ⟨[], m, cur, rfl, rfl, by simp [ranked], by simp, hs, fun h => ⟨h, rfl⟩⟩
  | cons key keys ih =>
    have hlt : ∀ p ∈ cur, p.1 < key := fun p hp =>
      (List.pairwise_append.mp hsorted).2.2 p hp (key, i) (by simp [ranked])
    have happend : cur ++ ranked i (key :: keys) = cur ++ [(key, i)] ++ ranked (i + 1) keys := by
      simp [ranked]
    rcases hs.addPoint hlt (fun p hp => hmem p (by simp [hp])) (hmem (key, i) (by simp [ranked]))
      with ⟨hfits, m', hadd, hs'⟩ | ⟨hfits, m', next, hadd, hpoints, hlen, hspans, hnext, hs'⟩
    case inl =>
      rw [happend] at hsorted hmem ⊢
      obtain ⟨closed, last, run, hrun, hlength, hflat, hclosed, hlast, hnil⟩ :=
        ih m' hs' hsorted hmem
      refine ⟨closed, last, run, ?_, ?_, hflat, hclosed, hlast, fun h => ?_⟩
      · rw [segments, hadd]
        exact hrun
      · rw [ranked, greedyBreaks_of_fits hfits]
        exact hlength
      · exact absurd (hnil h).1 (by simp)
    case inr =>
      have hsuffix : [(key, i)] ++ ranked (i + 1) keys <:+ cur ++ ranked i (key :: keys) :=
        List.suffix_append _ _
      obtain ⟨closed, last, run, hrun, hlength, hflat, hclosed, hlast, hnil⟩ := ih next hs'
        (hsorted.sublist hsuffix.sublist) fun p hp => hmem p (hsuffix.subset hp)
      refine ⟨m' :: closed, last, run, ?_, ?_, ?_, ?_, hlast, fun h => ?_⟩
      · rw [segments, hadd]
        simp only [bind, Except.bind, Bool.false_eq_true, if_false, hnext, hrun]
        rfl
      · rw [List.length_cons, ranked, greedyBreaks_of_not_fits hfits, hlength]
      · rw [List.map_cons, List.flatten_cons, hpoints, List.append_assoc, hflat]
        rfl
      · intro c hc
        rcases List.mem_cons.mp hc with rfl | hc
        · refine ⟨hpoints ▸ hlen, hpoints ▸ hspans, (key, i), ?_, hpoints ▸ hfits⟩
          rw [hpoints, happend]
          exact (List.prefix_append _ _).isInfix
        · obtain ⟨hlen', hspans', p, hwithin, hnot⟩ := hclosed c hc
          exact ⟨hlen', hspans', p, hwithin.trans hsuffix.isInfix, hnot⟩
      · exact absurd (hnil h).1 (by simp)

section Ranks

variable {keys : List ℤ} {e : ℕ}

theorem PGMMetric_segments (hsorted : keys.Pairwise (· < ·)) (hlen : keys.length < 2 ^ 31) :
    ∃ closed last run, segments { epsilon := e } 0 keys = .ok (closed, last) ∧
      PGMMetric keys e = .ok (closed.length + 1,
        (closed.map OptimalPiecewiseLinearModel.getMseMetric).sum / (closed.length + 1 : ℕ)) ∧
      closed.length = greedyBreaks (FitsBands .uint64 e) [] (ranked 0 keys) ∧
      (closed.map OptimalPiecewiseLinearModel.points).flatten ++ run = ranked 0 keys ∧
      (∀ c ∈ closed, IsClosed e (ranked 0 keys) c) ∧ IsSegment e last run ∧
      (run = [] → keys = []) := by
  have hsort : keys.insertionSort (· ≤ ·) = keys :=
    (hsorted.imp fun h => h.le).insertionSort_eq
  obtain ⟨closed, last, run, hrun, hlength, hflat, hclosed, hlast, hnil⟩ :=
    segments_spec (i := 0) { epsilon := e } keys (IsSegment.nil (e := e) rfl rfl rfl)
      (by simpa using pairwise_ranked hsorted) (by simpa using uint64_mem_of_length_lt hlen)
  refine ⟨closed, last, run, hrun, ?_, hlength, hflat, hclosed, hlast, fun h => (hnil h).2⟩
  rw [PGMMetric, hsort, metricLoop_eq_segments, hrun]
  simp only [Except.map, bind, Except.bind, pure, Except.pure, zero_add, Nat.add_comm 1]

theorem fitsRun_mono {e₁ e₂ : ℕ} (he : e₁ ≤ e₂) {run : List (ℤ × ℤ)} (h : FitsRun e₁ run) :
    FitsRun e₂ run := by
  have he' : (e₁ : ℚ) ≤ e₂ := Nat.cast_le.mpr he
  obtain ⟨a, b, hab⟩ := h
  refine ⟨a, b, fun p hp => ?_⟩
  obtain ⟨hlo, hhi⟩ := hab p hp
  refine ⟨le_trans (max_le_max_left 0 ?_) hlo, hhi.trans ?_⟩
  · linarith
  · linarith

/-- A wider error bound does not need more segments. -/
theorem PGMMetric_antitone (keys : List ℤ) (e₁ e₂ : ℕ) (hne : keys ≠ [])
    (hsorted : keys.Pairwise (· < ·)) (hlen : keys.length < 2 ^ 31) (he : e₁ ≤ e₂)
    (he₂ : e₂ < 2 ^ 31) :
    ∃ metric₁ mse₁ metric₂ mse₂, PGMMetric keys e₁ = .ok (metric₁, mse₁) ∧
      PGMMetric keys e₂ = .ok (metric₂, mse₂) ∧ metric₂ ≤ metric₁ := by
  obtain ⟨mse₁, hmetric₁⟩ := PGMMetric_eq (e := e₁) hsorted hlen
  obtain ⟨mse₂, hmetric₂⟩ := PGMMetric_eq (e := e₂) hsorted hlen
  refine ⟨_, mse₁, _, mse₂, hmetric₁, hmetric₂, ?_⟩
  obtain ⟨runs, hcut, hruns⟩ := (fitsRun_isLeast hne hlen (he.trans_lt he₂)).1
  exact (fitsRun_isLeast hne hlen he₂).2 ⟨runs, hcut.mono fun r _ => fitsRun_mono he, hruns⟩

theorem PGMMetric_antitone_five_keys :
    ∃ metric₁ mse₁ metric₂ mse₂, PGMMetric [0, 100, 113, 126, 140] 1 = .ok (metric₁, mse₁) ∧
      PGMMetric [0, 100, 113, 126, 140] 2 = .ok (metric₂, mse₂) ∧ metric₂ ≤ metric₁ :=
  PGMMetric_antitone [0, 100, 113, 126, 140] 1 2 (by decide) (by decide) (by decide) (by decide)
    (by decide)

/-! ### The length of a segment -/

theorem fitsRun_of_length_le {run : List (ℤ × ℤ)} (hrun : run <:+: ranked 0 keys)
    (hshort : run.length ≤ 2 * e + 1) : FitsRun e run := by
  obtain ⟨before, behind, happend⟩ := hrun
  have hrun : run = ranked before.length ((keys.drop before.length).take run.length) := by
    rw [← ranked_take, ← zero_add (before.length : ℤ), ← ranked_drop, ← happend]
    simp
  refine ⟨0, before.length + e, fun p hp => ?_⟩
  rw [hrun] at hp
  obtain ⟨-, hge, hlt⟩ := mem_ranked hp
  rw [List.length_take] at hlt
  have hle : p.2 ≤ before.length + 2 * e := by omega
  have hge' : (before.length : ℚ) ≤ p.2 := by exact_mod_cast hge
  have hle' : (p.2 : ℚ) ≤ before.length + 2 * e := by exact_mod_cast hle
  have hpos : (0 : ℚ) ≤ before.length := Nat.cast_nonneg _
  have hpos' : (0 : ℚ) ≤ e := Nat.cast_nonneg _
  refine ⟨max_le ?_ ?_, ?_⟩
  · linarith
  · linarith
  · linarith

theorem IsClosed.two_mul_lt {c : OptimalPiecewiseLinearModel} (hlen : keys.length < 2 ^ 31)
    (he : e < 2 ^ 31) (hc : IsClosed e (ranked 0 keys) c) : 2 * e + 1 ≤ c.points.length := by
  obtain ⟨p, hwithin, hnot⟩ := hc.next
  by_contra hshort
  refine hnot ((fitsBands_uint64_iff he fun q hq => ?_).mpr (fitsRun_of_length_le hwithin ?_))
  · exact rank_lt_of_length_lt hlen q (hwithin.subset hq)
  · rw [List.length_append, List.length_singleton]
    omega

/-- Every segment that is closed has at least `2 * e + 1` keys, which bounds their number. -/
theorem PGMMetric_segments_long (keys : List ℤ) (e : ℕ) (hne : keys ≠ [])
    (hsorted : keys.Pairwise (· < ·)) (hlen : keys.length < 2 ^ 31) (he : e < 2 ^ 31) :
    ∃ closed last metric mse, segments { epsilon := e } 0 keys = .ok (closed, last) ∧
      PGMMetric keys e = .ok (metric, mse) ∧ metric = closed.length + 1 ∧
      (∀ c ∈ closed, 2 * e + 1 ≤ c.points.length) ∧
      metric ≤ ⌈(keys.length : ℚ) / (2 * e + 1)⌉₊ := by
  obtain ⟨closed, last, run, hsegments, hmetric, -, hflat, hclosed, -, hnil⟩ :=
    PGMMetric_segments (e := e) hsorted hlen
  have hlong : ∀ c ∈ closed, 2 * e + 1 ≤ c.points.length :=
    fun c hc => (hclosed c hc).two_mul_lt hlen he
  refine ⟨closed, last, _, _, hsegments, hmetric, rfl, hlong, ?_⟩
  have hcount : closed.length * (2 * e + 1) < keys.length := by
    have hlength := congrArg List.length hflat
    rw [List.length_append, length_ranked, List.length_flatten, List.map_map] at hlength
    have hsum := List.card_nsmul_le_sum (closed.map (List.length ∘ OptimalPiecewiseLinearModel.points))
      (2 * e + 1) (by simpa using hlong)
    rw [List.length_map, nsmul_eq_mul, Nat.cast_id] at hsum
    have hrun : 0 < run.length := List.length_pos_iff.mpr fun h => hne (hnil h)
    omega
  refine Nat.lt_ceil.mpr ((lt_div_iff₀ (by positivity)).mpr ?_)
  exact_mod_cast hcount

theorem PGMMetric_segments_long_five_keys :
    ∃ closed last metric mse,
      segments { epsilon := 1 } 0 [0, 100, 113, 126, 140] = .ok (closed, last) ∧
      PGMMetric [0, 100, 113, 126, 140] 1 = .ok (metric, mse) ∧ metric = closed.length + 1 ∧
      (∀ c ∈ closed, 2 * 1 + 1 ≤ c.points.length) ∧
      metric ≤ ⌈(([0, 100, 113, 126, 140] : List ℤ).length : ℚ) / (2 * (1 : ℕ) + 1)⌉₊ :=
  PGMMetric_segments_long [0, 100, 113, 126, 140] 1 (by decide) (by decide) (by decide) (by decide)

end Ranks

end LearnedIndexFramework.Metric
