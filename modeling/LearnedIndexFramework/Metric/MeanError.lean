import LearnedIndexFramework.Metric.Segments

/-! The value that `PGM_metric` stores through the `mse` pointer.  The last segment is counted, but
its error is not added: the value is the mean over all segments only when that error is zero. -/

namespace LearnedIndexFramework.Metric

open Lib PgmMetric

/-! ### Segments without errors -/

section Exact

variable {h : Hull} {pts : List (ℤ × ℤ)} {lim : Limits} {epsilon : ℤ}

theorem sum_mul_self_eq_zero_iff {α : Type} {f : α → ℤ} {l : List α} :
    (l.map fun a => f a * f a).sum = 0 ↔ ∀ a ∈ l, f a = 0 := by
  induction l with
  | nil => simp
  | cons a l ih =>
    have hnonneg : 0 ≤ (l.map fun a => f a * f a).sum :=
      List.sum_nonneg (by simpa using fun a _ => mul_self_nonneg (f a))
    rw [List.map_cons, List.sum_cons, List.forall_mem_cons, ← ih, ← mul_self_eq_zero (a := f a)]
    have hself := mul_self_nonneg (f a)
    omega

theorem meanSquaredError_eq_zero_iff (hne : pts ≠ []) :
    h.meanSquaredError pts = 0 ↔ ∀ p ∈ pts, h.predictionError p = 0 := by
  have hlength : (pts.length : ℚ) ≠ 0 := by
    exact_mod_cast (List.length_pos_iff.mpr hne).ne'
  rw [Hull.meanSquaredError, div_eq_zero_iff, or_iff_left hlength, Int.cast_eq_zero,
    sum_mul_self_eq_zero_iff]

theorem predictionError_of_eval (hs : Spans lim epsilon h pts) {v₀ v : ℤ} {p : ℤ × ℤ}
    (h₀ : (lineOf h.rectangle.r1 h.rectangle.r3).eval h.firstX = v₀)
    (hp : (lineOf h.rectangle.r1 h.rectangle.r3).eval p.1 = v) :
    h.predictionError p = v - p.2 := by
  have hintercept : (h.getFloatingPointSegment h.firstX).2 = v₀ := by
    have hle := hs.abs_intercept_sub_le h.firstX
    rw [h₀, abs_le] at hle
    have hlt : ((h.getFloatingPointSegment h.firstX).2 : ℚ) < (v₀ + 1 : ℤ) := by
      push_cast
      linarith [hle.2]
    have hgt : ((v₀ - 1 : ℤ) : ℚ) < (h.getFloatingPointSegment h.firstX).2 := by
      push_cast
      linarith [hle.1]
    have hlt' : (h.getFloatingPointSegment h.firstX).2 < v₀ + 1 := by exact_mod_cast hlt
    have hgt' : v₀ - 1 < (h.getFloatingPointSegment h.firstX).2 := by exact_mod_cast hgt
    omega
  have hproduct : h.product p.1 = (v - v₀ : ℤ) := by
    rw [hs.eval_eq h.firstX, h₀] at hp
    rw [Hull.product]
    push_cast
    linarith
  rw [Hull.predictionError, hproduct, truncate_intCast, hintercept]
  ring

theorem predictionError_of_zero (hs : Spans lim 0 h pts) (hmem : ∀ p ∈ pts, lim.Mem p.2) :
    ∀ p ∈ pts, h.predictionError p = 0 := by
  have heval : ∀ p ∈ pts, (lineOf h.rectangle.r1 h.rectangle.r3).eval p.1 = p.2 := by
    intro p hp
    obtain ⟨hlo, hhi⟩ := hs.steepest p hp
    have hle := bandLo_le le_rfl (hmem p hp)
    have hge := le_bandHi le_rfl (hmem p hp)
    rw [bandLo_eq_bandHi (hmem p hp)] at hlo hle
    rw [le_antisymm hhi hlo, le_antisymm hle hge]
  intro p hp
  obtain ⟨q, rest, rfl⟩ := List.exists_cons_of_ne_nil (List.ne_nil_of_mem hp)
  have hfirst := heval q List.mem_cons_self
  rw [← hs.firstX q rfl] at hfirst
  rw [predictionError_of_eval hs hfirst (heval p hp), sub_self]

theorem exists_predictionError_ne_zero {e : ℕ} (hs : Spans .uint64 e h pts) (he : 0 < e)
    (he' : e < 2 ^ 31) (hranks : ∀ p ∈ pts, 0 ≤ p.2 ∧ p.2 < 2 ^ 31)
    (hmono : pts.Pairwise (fun p q => p.2 < q.2)) (hsorted : pts.Pairwise (fun p q => p.1 < q.1)) :
    ∃ p ∈ pts, h.predictionError p ≠ 0 := by
  by_contra hall
  push Not at hall
  obtain ⟨p, hp, hr1⟩ := hs.lower
  obtain ⟨q, hq, hr3⟩ := hs.upper
  have hlt := hs.lt
  have hlow : (lineOf h.rectangle.r1 h.rectangle.r3).eval p.1 = bandLo .uint64 e p.2 := by
    have heval := eval_lineOf_left h.rectangle.r1 h.rectangle.r3
    rwa [congrArg Point.x hr1, congrArg Point.y hr1] at heval
  have hhigh : (lineOf h.rectangle.r1 h.rectangle.r3).eval q.1 = bandHi .uint64 e q.2 := by
    have heval := eval_lineOf_right hlt
    rwa [congrArg Point.x hr3, congrArg Point.y hr3] at heval
  have hmem : ∀ p ∈ pts, Limits.uint64.Mem p.2 := by
    intro p hp
    obtain ⟨h0, h1⟩ := hranks p hp
    exact ⟨h0, by simp only [Limits.uint64]; omega⟩
  have htruncated := (predictsWithin hs (Int.natCast_nonneg e) hsorted
    (hmono.imp fun h => h.le) hmem).truncated p hp
  -- a prediction is not above the lower end, so that end is rank zero, and the first of all
  have hzero : p.2 = 0 := by
    have hle := hs.predict_le h.firstX (Int.floor_le _) hlow.le
    have herror := hall p hp
    rw [Hull.predictionError, htruncated, Hull.product] at herror
    rw [bandLo_eq_max] at hle
    have h0 := (hranks p hp).1
    simp only [Limits.uint64] at hle
    omega
  have hfirst : h.firstX = p.1 := by
    obtain ⟨r, rest, rfl⟩ := List.exists_cons_of_ne_nil (List.ne_nil_of_mem hp)
    rcases List.mem_cons.mp hp with rfl | hmem'
    · exact hs.firstX p rfl
    · have hlt' := (List.pairwise_cons.mp hmono).1 p hmem'
      have h0 := (hranks r List.mem_cons_self).1
      omega
  rw [← hfirst] at hlow
  have herror := hall q hq
  rw [predictionError_of_eval hs hlow hhigh, bandHi_eq_min] at herror
  have hlt' := (hranks q hq).2
  simp only [Limits.uint64] at herror
  omega

end Exact

/-! ### The last segment -/

namespace PgmMetric

def OptimalPiecewiseLinearModel.segmentError (m : OptimalPiecewiseLinearModel) : ℚ :=
  if m.points.length = 1 then 0 else m.meanSquaredError m.points

theorem segments_append (m : OptimalPiecewiseLinearModel) (i key : ℤ) (keys : List ℤ) :
    segments m i (keys ++ [key]) = do
      let (closed, last) ← segments m i keys
      let (accepted, last') ← last.addPoint .uint64 key (i + keys.length)
      if accepted then return (closed, last')
      else
        let (_, next) ← last'.reset.addPoint .uint64 key (i + keys.length)
        return (closed ++ [last'], next) := by
  induction keys generalizing m i with
  | nil =>
    simp only [List.nil_append, List.length_nil, Nat.cast_zero, add_zero, segments]
    rfl
  | cons k keys ih =>
    have hlength : i + 1 + (keys.length : ℤ) = i + ((k :: keys).length : ℕ) := by
      rw [List.length_cons]
      omega
    rw [List.cons_append, segments, segments]
    cases hadd : m.addPoint .uint64 k i with
    | error e => rfl
    | ok r =>
      obtain ⟨accepted, m'⟩ := r
      cases accepted with
      | true =>
        rw [← hlength]
        exact ih m' (i + 1)
      | false =>
        simp only [bind, Except.bind, Bool.false_eq_true, if_false]
        cases hnext : m'.reset.addPoint .uint64 k i with
        | error e => rfl
        | ok r =>
          obtain ⟨-, next⟩ := r
          simp only [ih, hlength]
          cases hrest : segments next (i + 1) keys with
          | error e => rfl
          | ok r =>
            obtain ⟨closed, last⟩ := r
            simp only [bind, Except.bind, pure, Except.pure]
            cases hlast : last.addPoint .uint64 key (i + ((k :: keys).length : ℕ)) with
            | error e => rfl
            | ok r =>
              obtain ⟨accepted, last'⟩ := r
              cases accepted with
              | true => rfl
              | false =>
                simp only [Bool.false_eq_true, if_false]
                cases last'.reset.addPoint .uint64 key (i + ((k :: keys).length : ℕ)) with
                | error e => rfl
                | ok r => rfl

end PgmMetric

def LastAlone (e : ℕ) (keys : List ℤ) : Prop :=
  ∃ n, IsLeast (cutSizes (FitsRun e) (ranked 0 keys.dropLast)) n ∧
    IsLeast (cutSizes (FitsRun e) (ranked 0 keys)) (n + 1)

section Last

variable {keys : List ℤ} {e : ℕ} {closed : List OptimalPiecewiseLinearModel}
  {last : OptimalPiecewiseLinearModel}

theorem isLeast_cutSizes_nil {α : Type} {P : List α → Prop} : IsLeast (cutSizes P []) 0 :=
  ⟨⟨[], ⟨rfl, by simp, by simp⟩, rfl⟩, fun _ _ => Nat.zero_le _⟩

theorem length_points_eq_one_iff (hne : keys ≠ []) (hsorted : keys.Pairwise (· < ·))
    (hlen : keys.length < 2 ^ 31) (he : e < 2 ^ 31)
    (hsegments : segments { epsilon := e } 0 keys = .ok (closed, last)) :
    last.points.length = 1 ↔ LastAlone e keys := by
  obtain ⟨key, hkey⟩ : ∃ key, keys = keys.dropLast ++ [key] :=
    ⟨_, (List.dropLast_append_getLast hne).symm⟩
  generalize hinit : keys.dropLast = init at hkey
  have hsub : init.Sublist keys := hinit ▸ List.dropLast_sublist keys
  have hmem := uint64_mem_of_length_lt hlen
  have hpair := pairwise_ranked (i := 0) hsorted
  rw [hkey, ranked_append, zero_add] at hmem hpair
  obtain ⟨closed₀, last₀, run, hrun, -, hlength₀, hflat, -, hlast₀, hnil⟩ :=
    PGMMetric_segments (e := e) (hsorted.sublist hsub) (hsub.length_le.trans_lt hlen)
  have hsubset : run ⊆ ranked 0 init := hflat ▸ List.subset_append_right _ _
  have hleast : IsLeast (cutSizes (FitsRun e) (ranked 0 keys)) (closed.length + 1) := by
    obtain ⟨closed', last', -, hrun', -, hlength', -⟩ := PGMMetric_segments (e := e) hsorted hlen
    rw [hsegments] at hrun'
    cases hrun'
    rw [hlength']
    exact fitsRun_isLeast hne hlen he
  rw [hkey, segments_append, hrun, zero_add] at hsegments
  simp only [bind, Except.bind] at hsegments
  have hiff : LastAlone e keys ↔
      IsLeast (cutSizes (FitsRun e) (ranked 0 init)) closed.length := by
    rw [LastAlone, hinit]
    constructor
    · rintro ⟨n, hn, hn'⟩
      have heq := hn'.unique hleast
      rwa [Nat.add_right_cancel_iff.mp heq] at hn
    · exact fun hn => ⟨_, hn, hleast⟩
  rw [hiff]
  have hlt : ∀ p ∈ run, p.1 < key := fun p hp =>
    (List.pairwise_append.mp hpair).2.2 p (hsubset hp) (key, init.length) (by simp)
  have hi : Limits.uint64.Mem (init.length : ℤ) := hmem (key, init.length) (by simp)
  have hleast₀ : init ≠ [] →
      IsLeast (cutSizes (FitsRun e) (ranked 0 init)) (closed₀.length + 1) := by
    intro hinit'
    rw [hlength₀]
    exact fitsRun_isLeast hinit' (hsub.length_le.trans_lt hlen) he
  rcases hlast₀.addPoint hlt (fun p hp => hmem p (List.mem_append_left _ (hsubset hp))) hi
    with ⟨-, m', hadd, hs'⟩ | ⟨-, m', next, hadd, -, hrunlen, -, hnext, hs'⟩
  case inl =>
    rw [hadd] at hsegments
    cases hsegments
    rw [hs'.points, List.length_append, List.length_singleton]
    cases init with
    | nil =>
      obtain rfl : run = [] := List.eq_nil_of_subset_nil hsubset
      rw [hlength₀]
      exact iff_of_true rfl isLeast_cutSizes_nil
    | cons k init =>
      have hpos : 0 < run.length := List.length_pos_iff.mpr fun h => absurd (hnil h) (by simp)
      refine iff_of_false (by omega) fun hleast' => ?_
      have heq := hleast'.unique (hleast₀ (by simp))
      omega
  case inr =>
    rw [hadd] at hsegments
    simp only [Bool.false_eq_true, if_false, hnext] at hsegments
    cases hsegments
    rw [hs'.points, List.length_append, List.length_singleton]
    refine iff_of_true rfl (hleast₀ ?_)
    rintro rfl
    rw [List.eq_nil_of_subset_nil hsubset] at hrunlen
    cases hrunlen

theorem pairwise_ranked_rank (i : ℤ) (keys : List ℤ) :
    (ranked i keys).Pairwise (fun p q => p.2 < q.2) := by
  induction keys generalizing i with
  | nil => exact .nil
  | cons key keys ih =>
    refine .cons (fun p hp => ?_) (ih (i + 1))
    have hge := (mem_ranked hp).2.1
    change i < p.2
    omega

theorem segmentError_eq_zero_iff {run : List (ℤ × ℤ)} (hlen : keys.length < 2 ^ 31)
    (hsorted : keys.Pairwise (· < ·)) (he : e < 2 ^ 31) (hs : IsSegment e last run)
    (hne : run ≠ []) (hsuffix : run <:+ ranked 0 keys) :
    last.segmentError = 0 ↔ e = 0 ∨ last.points.length = 1 := by
  have hpos := List.length_pos_iff.mpr hne
  rw [OptimalPiecewiseLinearModel.segmentError]
  by_cases hone : last.points.length = 1
  case pos => rw [if_pos hone, eq_self, or_iff_right_of_imp fun _ => hone, true_iff]; exact hone
  case neg =>
    rw [if_neg hone, or_iff_left hone, hs.points, meanSquaredError_eq_zero_iff hne]
    have hlength : 2 ≤ run.length := by
      rw [hs.points] at hone
      omega
    have hspans := hs.drawn.spans hs.holds hlength
    rw [hs.epsilon] at hspans
    constructor
    · intro hall
      by_contra he0
      obtain ⟨p, hp, herror⟩ := exists_predictionError_ne_zero hspans (Nat.pos_of_ne_zero he0) he
        (fun p hp => rank_lt_of_length_lt hlen p (hsuffix.subset hp))
        ((pairwise_ranked_rank 0 keys).sublist hsuffix.sublist)
        ((pairwise_ranked hsorted).sublist hsuffix.sublist)
      exact herror (hall p hp)
    · rintro rfl
      exact predictionError_of_zero hspans fun p hp =>
        uint64_mem_of_length_lt hlen p (hsuffix.subset hp)

theorem IsClosed.getMseMetric_eq {input : List (ℤ × ℤ)} {c : OptimalPiecewiseLinearModel}
    (hc : IsClosed e input c) (he : e < 2 ^ 31) : c.getMseMetric = c.segmentError := by
  have hone : c.points.length ≠ 1 := by
    have hlength := hc.length
    omega
  rw [← getMseMetric64_eq, getMseMetric64_of_spans hc.spans rfl (Int.natCast_nonneg e) (by omega),
    OptimalPiecewiseLinearModel.segmentError, if_neg hone]

end Last

/-- The stored value is the mean error of all segments if and only if there is no tolerance or the
last key is alone in its segment. -/
theorem PGMMetric_mse_iff (keys : List ℤ) (e : ℕ) (hne : keys ≠ [])
    (hsorted : keys.Pairwise (· < ·)) (hlen : keys.length < 2 ^ 31) (he : e < 2 ^ 31) :
    ∃ closed last metric mse, segments { epsilon := e } 0 keys = .ok (closed, last) ∧
      PGMMetric keys e = .ok (metric, mse) ∧ metric = (closed ++ [last]).length ∧
      (mse = ((closed ++ [last]).map OptimalPiecewiseLinearModel.segmentError).sum / metric ↔
        e = 0 ∨ LastAlone e keys) := by
  obtain ⟨closed, last, run, hsegments, hmetric, -, hflat, hclosed, hlast, hnil⟩ :=
    PGMMetric_segments (e := e) hsorted hlen
  refine ⟨closed, last, _, _, hsegments, hmetric, by simp, ?_⟩
  have hsum : (closed.map OptimalPiecewiseLinearModel.getMseMetric).sum =
      (closed.map OptimalPiecewiseLinearModel.segmentError).sum :=
    congrArg List.sum (List.map_congr_left fun c hc => (hclosed c hc).getMseMetric_eq he)
  have hcount : ((closed.length + 1 : ℕ) : ℚ) ≠ 0 := Nat.cast_ne_zero.mpr (Nat.succ_ne_zero _)
  rw [← length_points_eq_one_iff hne hsorted hlen he hsegments,
    ← segmentError_eq_zero_iff hlen hsorted he hlast (fun h => hne (hnil h)) ⟨_, hflat⟩, hsum,
    List.map_append, List.sum_append, List.map_singleton, List.sum_singleton, div_left_inj' hcount,
    left_eq_add]

theorem PGMMetric_mse_iff_three_keys :
    ∃ closed last metric mse, segments { epsilon := (0 : ℕ) } 0 [0, 1, 5] = .ok (closed, last) ∧
      PGMMetric [0, 1, 5] 0 = .ok (metric, mse) ∧ metric = (closed ++ [last]).length ∧
      mse = ((closed ++ [last]).map OptimalPiecewiseLinearModel.segmentError).sum / metric := by
  obtain ⟨closed, last, metric, mse, hsegments, hmetric, hcount, hiff⟩ :=
    PGMMetric_mse_iff [0, 1, 5] 0 (by decide) (by decide) (by decide) (by decide)
  exact ⟨closed, last, metric, mse, hsegments, hmetric, hcount, hiff.mpr (.inl rfl)⟩

theorem PGMMetric_mse_two_keys :
    ∃ last, segments { epsilon := 1 } 0 [0, 1] = .ok ([], last) ∧
      PGMMetric [0, 1] 1 = .ok (1, 0) ∧ last.segmentError = 1 / 2 := by
  refine ⟨_, rfl, by decide +kernel, by decide +kernel⟩

end LearnedIndexFramework.Metric
