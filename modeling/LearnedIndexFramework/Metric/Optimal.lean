import LearnedIndexFramework.Lib.Greedy
import LearnedIndexFramework.Metric.Exact

/-! The two segmentation passes count the least number of runs: `PGM_metric` for the error
bands clamped at rank zero, the verification pass of `dataGenerator` for the plain bands. -/

namespace LearnedIndexFramework.Metric

open Lib

def ranked (i : ℤ) : List ℤ → List (ℤ × ℤ)
  | [] => []
  | key :: keys => (key, i) :: ranked (i + 1) keys

theorem length_ranked (i : ℤ) (keys : List ℤ) : (ranked i keys).length = keys.length := by
  induction keys generalizing i with
  | nil => rfl
  | cons key keys ih => simp [ranked, ih]

theorem mem_ranked {i : ℤ} {keys : List ℤ} {p : ℤ × ℤ} (h : p ∈ ranked i keys) :
    p.1 ∈ keys ∧ i ≤ p.2 ∧ p.2 < i + keys.length := by
  induction keys generalizing i with
  | nil => simp [ranked] at h
  | cons key keys ih =>
    rcases List.mem_cons.mp h with rfl | h
    · simp
    · obtain ⟨h1, h2, h3⟩ := ih h
      simp only [List.length_cons, List.mem_cons, Nat.cast_add, Nat.cast_one]
      exact ⟨.inr h1, by omega, by omega⟩

theorem ranked_drop (i : ℤ) (keys : List ℤ) (k : ℕ) :
    (ranked i keys).drop k = ranked (i + k) (keys.drop k) := by
  induction keys generalizing i k with
  | nil => simp [ranked]
  | cons key keys ih =>
    cases k with
    | zero => simp
    | succ k =>
      simp only [ranked, List.drop_succ_cons, ih]
      congr 1
      push_cast
      omega

theorem ranked_take (i : ℤ) (keys : List ℤ) (k : ℕ) :
    (ranked i keys).take k = ranked i (keys.take k) := by
  induction keys generalizing i k with
  | nil => simp [ranked]
  | cons key keys ih =>
    cases k with
    | zero => rfl
    | succ k => simp [ranked, ih]

theorem ranked_append (i key : ℤ) (keys : List ℤ) :
    ranked i (keys ++ [key]) = ranked i keys ++ [(key, i + keys.length)] := by
  induction keys generalizing i with
  | nil => simp [ranked]
  | cons k keys ih =>
    rw [List.cons_append, ranked, ranked, ih, List.cons_append, List.length_cons]
    congr 4
    omega

theorem ranked_shift (i : ℤ) (keys : List ℤ) :
    ranked (i + 1) keys = (ranked i keys).map fun p => (p.1, p.2 + 1) := by
  induction keys generalizing i with
  | nil => rfl
  | cons key keys ih => simp [ranked, ih]

theorem pairwise_ranked {i : ℤ} {keys : List ℤ} (h : keys.Pairwise (· < ·)) :
    (ranked i keys).Pairwise (fun p q => p.1 < q.1) := by
  induction keys generalizing i with
  | nil => exact .nil
  | cons key keys ih =>
    rw [List.pairwise_cons] at h
    exact .cons (fun p hp => h.1 p.1 (mem_ranked hp).1) (ih h.2)

theorem fitsBands_hereditary (lim : Limits) (epsilon : ℤ) : Hereditary (FitsBands lim epsilon) where
  left := by
    rintro s t ⟨a, b, hab⟩
    exact ⟨a, b, fun p hp => hab p (by simp [hp])⟩
  right := by
    rintro s t ⟨a, b, hab⟩
    exact ⟨a, b, fun p hp => hab p (by simp [hp])⟩

theorem fitsBands_singleton {lim : Limits} {epsilon : ℤ} (heps : 0 ≤ epsilon) {p : ℤ × ℤ}
    (hp : lim.Mem p.2) : FitsBands lim epsilon [p] :=
  fitsBands_iff.mpr (family_singleton_nonempty (h := { epsilon }) heps hp)

section Passes

variable {cur : List (ℤ × ℤ)} {epsilon i : ℤ}

theorem PgmMetric.metricLoop_eq (segment : OptimalPiecewiseLinearModel) (metric : ℕ) (mseSum : ℚ)
    (i : ℤ) (keys : List ℤ) (hh : Holds .uint64 segment.toHull cur)
    (he : segment.epsilon = epsilon) (heps : 0 ≤ epsilon)
    (hsorted : (cur ++ ranked i keys).Pairwise (fun p q => p.1 < q.1))
    (hmem : ∀ p ∈ cur ++ ranked i keys, Limits.uint64.Mem p.2) :
    ∃ mse, metricLoop segment metric mseSum i keys =
      .ok (metric + greedyBreaks (FitsBands .uint64 epsilon) cur (ranked i keys), mse) := by
  induction keys generalizing cur i segment metric mseSum with
  | nil => exact ⟨mseSum, by simp [metricLoop, ranked, greedyBreaks]⟩
  | cons key keys ih =>
    have hlt : ∀ p ∈ cur, p.1 < key := fun p hp =>
      (List.pairwise_append.mp hsorted).2.2 p hp (key, i) (by simp [ranked])
    have hy : Limits.uint64.Mem i := hmem (key, i) (by simp [ranked])
    obtain ⟨s', hs', hhull⟩ := PgmMetric.drivesHull .uint64 segment key i (hh.not_unordered hlt)
    obtain ⟨hiff, hholds⟩ := hh.addPoint (he ▸ heps) hlt (fun p hp => hmem p (by simp [hp])) hy
    have heps' : s'.epsilon = epsilon := by rw [hhull, addPoint_epsilon, he]
    rw [he, ← fitsBands_iff] at hiff
    rw [metricLoop, hs', ranked]
    by_cases hfits : FitsBands .uint64 epsilon (cur ++ [(key, i)])
    · have hacc := hiff.mpr hfits
      rw [greedyBreaks_of_fits hfits]
      simp only [bind, Except.bind, hacc, if_true]
      exact ih s' metric mseSum (i + 1) (hhull ▸ hholds hacc) heps'
        (by simpa [ranked] using hsorted)
        (by simpa [ranked] using hmem)
    · have hrej : (Hull.addPoint .uint64 segment.toHull key i).1 = false := by
        rw [← Bool.not_eq_true, hiff]
        exact hfits
      obtain ⟨t, ht, hthull⟩ := PgmMetric.drivesHull .uint64 s'.reset key i (by
        simp [OptimalPiecewiseLinearModel.reset, Hull.reset])
      have hfirst : Holds .uint64 t.toHull [(key, i)] :=
        hthull ▸ (addPoint_first (holds_nil rfl)).2
      obtain ⟨mse, hmse⟩ := ih t (metric + 1) (mseSum + s'.getMseMetric) (i + 1) hfirst
        (by rw [hthull, addPoint_epsilon]; exact heps')
        (List.pairwise_append.mp hsorted).2.1 (fun p hp => hmem p (by simp_all [ranked]))
      refine ⟨mse, ?_⟩
      rw [greedyBreaks_of_not_fits hfits]
      simp only [bind, Except.bind, hrej, Bool.false_eq_true, if_false, ht, hmse]
      rw [Nat.add_right_comm, Nat.add_assoc]

theorem Generator.checkPoint_eq (lim : Limits) (h : Hull) (x y : ℤ) :
    checkPoint lim h x y = ((h.addPoint lim x y).1,
      if (h.addPoint lim x y).1 then h else { h with pointsInHull := 0 }) := by
  have hout : ∀ p1 p2, ({ h with lastX := x } : Hull).outside p1 p2 = h.outside p1 p2 :=
    fun _ _ => rfl
  simp only [checkPoint, Hull.addPoint, hout]
  split
  · simp
  split
  · simp
  split <;> simp

structure Generator.Tracks (epsilon : ℤ) (pass : Pass) (cur rest : List (ℤ × ℤ)) : Prop where
  holds : Holds .int64 pass.pla cur
  epsilon_eq : pass.pla.epsilon = epsilon
  sorted : (cur ++ rest).Pairwise (fun p q => p.1 < q.1)
  mem : ∀ p ∈ cur ++ rest, Limits.int64.Mem p.2

theorem Generator.Tracks.step {pass : Pass} {key : ℤ} {rest : List (ℤ × ℤ)}
    (h : Tracks epsilon pass cur ((key, i) :: rest)) (heps : 0 ≤ epsilon) :
    ∃ pass' cur', pass.step key i = .ok pass' ∧ Tracks epsilon pass' cur' rest ∧
      pass.generatedValue + greedyBreaks (FitsBands .int64 epsilon) cur ((key, i) :: rest) =
        pass'.generatedValue + greedyBreaks (FitsBands .int64 epsilon) cur' rest := by
  obtain ⟨hh, rfl, hsorted, hmem⟩ := h
  have hlt : ∀ p ∈ cur, p.1 < key := fun p hp =>
    (List.pairwise_append.mp hsorted).2.2 p hp (key, i) (by simp)
  obtain ⟨hiff, hholds⟩ := hh.addPoint heps hlt (fun p hp => hmem p (by simp [hp]))
    (hmem (key, i) (by simp))
  rw [← fitsBands_iff] at hiff
  rw [Pass.step, checkPoint_eq]
  cases hacc : (pass.pla.addPoint .int64 key i).1 with
  | true =>
    simp only [if_true, addPoint, if_neg (hh.not_unordered hlt), bind, Except.bind]
    refine ⟨_, cur ++ [(key, i)], rfl, ⟨hholds hacc, addPoint_epsilon, ?_, ?_⟩, ?_⟩
    · simpa using hsorted
    · simpa using hmem
    · rw [greedyBreaks_of_fits (hiff.mp hacc)]
  | false =>
    have hord : ¬ ((Hull.reset { pass.pla with pointsInHull := 0 }).pointsInHull > 0 ∧
        key ≤ (Hull.reset { pass.pla with pointsInHull := 0 }).lastX) := by
      simp [Hull.reset]
    simp only [Bool.false_eq_true, if_false, addPoint, if_neg hord, bind, Except.bind]
    refine ⟨_, [(key, i)], rfl, ⟨(addPoint_first (holds_nil rfl)).2, addPoint_epsilon, ?_, ?_⟩, ?_⟩
    · exact (List.pairwise_append.mp hsorted).2.1
    · exact fun p hp => hmem p (List.mem_append_right _ hp)
    · have hno : ¬ FitsBands .int64 pass.pla.epsilon (cur ++ [(key, i)]) := by
        rw [← hiff, hacc]
        simp
      rw [greedyBreaks_of_not_fits hno]
      change _ = pass.generatedValue + 1 + _
      omega

theorem Generator.verificationLoop_eq {localPass globalPass : Pass} {curL curG : List (ℤ × ℤ)}
    {epsilonL epsilonG : ℤ} {keys : List ℤ} (hL : Tracks epsilonL localPass curL (ranked i keys))
    (hG : Tracks epsilonG globalPass curG (ranked i keys)) (h0L : 0 ≤ epsilonL)
    (h0G : 0 ≤ epsilonG) :
    verificationLoop localPass globalPass i keys = .ok
      (localPass.generatedValue + greedyBreaks (FitsBands .int64 epsilonL) curL (ranked i keys),
        globalPass.generatedValue +
          greedyBreaks (FitsBands .int64 epsilonG) curG (ranked i keys)) := by
  induction keys generalizing curL curG i localPass globalPass with
  | nil => simp [verificationLoop, ranked, greedyBreaks]
  | cons key keys ih =>
    obtain ⟨passL, curL', hstepL, hL', hcountL⟩ := hL.step h0L
    obtain ⟨passG, curG', hstepG, hG', hcountG⟩ := hG.step h0G
    rw [verificationLoop, hstepL, hstepG, ranked, hcountL, hcountG]
    exact ih hL' hG'

end Passes

/-- A run that one line fits within `e` of every rank, and at zero or above: the error bands
of `PGM_metric`, whose ranks are unsigned. -/
def FitsRun (e : ℕ) (run : List (ℤ × ℤ)) : Prop :=
  ∃ a b : ℚ, ∀ p ∈ run, max 0 ((p.2 : ℚ) - e) ≤ a * p.1 + b ∧ a * p.1 + b ≤ p.2 + e

def FitsRanks (e : ℕ) (run : List (ℤ × ℤ)) : Prop :=
  ∃ a b : ℚ, ∀ p ∈ run, (p.2 : ℚ) - e ≤ a * p.1 + b ∧ a * p.1 + b ≤ p.2 + e

theorem fitsBands_uint64_iff {e : ℕ} (he : e < 2 ^ 31) {run : List (ℤ × ℤ)}
    (hrun : ∀ p ∈ run, 0 ≤ p.2 ∧ p.2 < 2 ^ 31) : FitsBands .uint64 e run ↔ FitsRun e run := by
  have hlo : ∀ p ∈ run, ((max Limits.uint64.lowest (p.2 - e) : ℤ) : ℚ) = max 0 ((p.2 : ℚ) - e) := by
    intro p _
    simp [Limits.uint64]
  have hhi : ∀ p ∈ run, ((min Limits.uint64.max (p.2 + e) : ℤ) : ℚ) = p.2 + e := by
    intro p hp
    obtain ⟨-, h⟩ := hrun p hp
    have : min Limits.uint64.max (p.2 + e) = p.2 + e :=
      min_eq_right (by simp [Limits.uint64]; omega)
    rw [this]
    push_cast
    ring
  constructor
  · rintro ⟨a, b, hab⟩
    refine ⟨a, b, fun p hp => ?_⟩
    rw [← hlo p hp, ← hhi p hp]
    exact hab p hp
  · rintro ⟨a, b, hab⟩
    refine ⟨a, b, fun p hp => ?_⟩
    rw [hlo p hp, hhi p hp]
    exact hab p hp

theorem fitsBands_int64_iff {e : ℕ} (he : e < 2 ^ 31) {run : List (ℤ × ℤ)}
    (hrun : ∀ p ∈ run, 0 ≤ p.2 ∧ p.2 < 2 ^ 31) :
    FitsBands .int64 e (run.map fun p => (p.1, p.2 + 1)) ↔ FitsRanks e run := by
  have hband : ∀ p ∈ run, max Limits.int64.lowest (p.2 + 1 - e) = p.2 + 1 - e ∧
      min Limits.int64.max (p.2 + 1 + e) = p.2 + 1 + e := by
    intro p hp
    obtain ⟨h0, h1⟩ := hrun p hp
    exact ⟨max_eq_right (by simp [Limits.int64]; omega),
      min_eq_right (by simp [Limits.int64]; omega)⟩
  constructor
  · rintro ⟨a, b, hab⟩
    refine ⟨a, b - 1, fun p hp => ?_⟩
    have h := hab (p.1, p.2 + 1) (List.mem_map_of_mem hp)
    simp only [hband p hp] at h
    push_cast at h
    constructor <;> linarith
  · rintro ⟨a, b, hab⟩
    refine ⟨a, b + 1, fun q hq => ?_⟩
    obtain ⟨p, hp, rfl⟩ := List.mem_map.mp hq
    have h := hab p hp
    simp only [hband p hp]
    push_cast
    constructor <;> linarith

theorem ranked_ne_nil {i : ℤ} {keys : List ℤ} (h : keys ≠ []) : ranked i keys ≠ [] := by
  intro hnil
  have := length_ranked i keys
  rw [hnil] at this
  exact h (List.eq_nil_of_length_eq_zero this.symm)

theorem rank_lt_of_length_lt {keys : List ℤ} (hlen : keys.length < 2 ^ 31) :
    ∀ p ∈ ranked 0 keys, 0 ≤ p.2 ∧ p.2 < 2 ^ 31 := by
  intro p hp
  obtain ⟨-, h0, h1⟩ := mem_ranked hp
  omega

section Ranks

variable {keys : List ℤ} {e : ℕ}

theorem uint64_mem_of_length_lt (hlen : keys.length < 2 ^ 31) :
    ∀ p ∈ ranked 0 keys, Limits.uint64.Mem p.2 := by
  intro p hp
  obtain ⟨h0, h1⟩ := rank_lt_of_length_lt hlen p hp
  exact ⟨h0, by simp only [Limits.uint64]; omega⟩

theorem PGMMetric_eq (hsorted : keys.Pairwise (· < ·)) (hlen : keys.length < 2 ^ 31) :
    ∃ mse, PgmMetric.PGMMetric keys e =
      .ok (greedyBreaks (FitsBands .uint64 e) [] (ranked 0 keys) + 1, mse) := by
  have hsort : keys.insertionSort (· ≤ ·) = keys :=
    (hsorted.imp fun h => h.le).insertionSort_eq
  obtain ⟨mse, hloop⟩ := PgmMetric.metricLoop_eq { epsilon := e } 1 0 0 keys (holds_nil rfl) rfl
    (by simp) (by simpa using pairwise_ranked hsorted) (by simpa using uint64_mem_of_length_lt hlen)
  refine ⟨_, by rw [PgmMetric.PGMMetric, hsort, hloop, Nat.add_comm]; rfl⟩

theorem fitsRun_isLeast (hne : keys ≠ []) (hlen : keys.length < 2 ^ 31) (he : e < 2 ^ 31) :
    IsLeast (cutSizes (FitsRun e) (ranked 0 keys))
      (greedyBreaks (FitsBands .uint64 e) [] (ranked 0 keys) + 1) := by
  have hrank := rank_lt_of_length_lt hlen
  rw [← cutSizes_congr fun r hr => fitsBands_uint64_iff he fun p hp => hrank p (hr hp)]
  exact isLeast_greedyBreaks (fitsBands_hereditary .uint64 e)
    (fun p hp => fitsBands_singleton (by omega) (uint64_mem_of_length_lt hlen p hp))
    (ranked_ne_nil hne)

end Ranks

/-- `PGM_metric` returns the least number of consecutive runs into which the ranks can be cut
so that every run is fitted by one line within the error bands. -/
theorem PGMMetric_isLeast (keys : List ℤ) (e : ℕ) (hne : keys ≠ [])
    (hsorted : keys.Pairwise (· < ·)) (hlen : keys.length < 2 ^ 31) (he : e < 2 ^ 31) :
    ∃ metric mse, PgmMetric.PGMMetric keys e = .ok (metric, mse) ∧
      IsLeast (cutSizes (FitsRun e) (ranked 0 keys)) metric := by
  obtain ⟨mse, hmetric⟩ := PGMMetric_eq (e := e) hsorted hlen
  exact ⟨_, mse, hmetric, fitsRun_isLeast hne hlen he⟩

theorem PGMMetric_isLeast_five_keys :
    IsLeast (cutSizes (FitsRun 1) (ranked 0 [0, 100, 113, 126, 140])) 2 := by
  obtain ⟨metric, mse, heq, hleast⟩ := PGMMetric_isLeast [0, 100, 113, 126, 140] 1 (by decide)
    (by decide) (by decide) (by decide)
  have hmetric : (PgmMetric.PGMMetric [0, 100, 113, 126, 140] 1).map Prod.fst = .ok 2 := by
    decide +kernel
  rw [heq] at hmetric
  obtain rfl : metric = 2 := Except.ok.inj hmetric
  exact hleast

theorem Generator.start_tracks {key : ℤ} {keys : List ℤ} (e : ℕ)
    (hsorted : (key :: keys).Pairwise (· < ·))
    (hmem : ∀ p ∈ ranked 1 (key :: keys), Limits.int64.Mem p.2) :
    ∃ pass, Pass.start e key = .ok pass ∧ pass.generatedValue = 1 ∧
      Tracks e pass [(key, 1)] (ranked 2 keys) := by
  have hord : ¬ ((Hull.reset { epsilon := (e : ℤ) }).pointsInHull > 0 ∧
      key ≤ (Hull.reset { epsilon := (e : ℤ) }).lastX) := by
    simp [Hull.reset]
  refine ⟨{ pla := ((Hull.reset { epsilon := (e : ℤ) }).addPoint .int64 key 1).2,
            generatedValue := 1 }, ?_, rfl, ?_⟩
  · rw [Pass.start, addPoint, if_neg hord]
    rfl
  · exact ⟨(addPoint_first (holds_nil rfl)).2, addPoint_epsilon, pairwise_ranked hsorted, hmem⟩

theorem Generator.verificationPass_spec (key : ℤ) (keys : List ℤ) (eL eG : ℕ)
    (hsorted : (key :: keys).Pairwise (· < ·)) (hkeys : ∀ x ∈ key :: keys, 0 ≤ x ∧ x < 2 ^ 63)
    (hlen : (key :: keys).length < 2 ^ 31) (heL : eL < 2 ^ 31) (heG : eG < 2 ^ 31) :
    ∃ l g, verificationPass eL eG key keys = .ok (l, g) ∧
      IsLeast (cutSizes (FitsRanks eL) (ranked 0 (key :: keys))) l ∧
      IsLeast (cutSizes (FitsRanks eG) (ranked 0 (key :: keys))) g := by
  have hrank := rank_lt_of_length_lt hlen
  have hmem : ∀ p ∈ ranked 1 (key :: keys), Limits.int64.Mem p.2 := by
    intro p hp
    obtain ⟨-, h0, h1⟩ := mem_ranked hp
    simp only [Limits.Mem, Limits.int64]
    omega
  obtain ⟨passL, hpassL, hvalueL, htracksL⟩ := start_tracks eL hsorted hmem
  obtain ⟨passG, hpassG, hvalueG, htracksG⟩ := start_tracks eG hsorted hmem
  have hleast : ∀ e : ℕ, e < 2 ^ 31 → IsLeast (cutSizes (FitsRanks e) (ranked 0 (key :: keys)))
      (1 + greedyBreaks (FitsBands .int64 e) [(key, 1)] (ranked 2 keys)) := by
    intro e he
    have hfirst : FitsBands .int64 e ([] ++ [(key, 1)]) :=
      fitsBands_singleton (by omega) (hmem (key, 1) (by simp [ranked]))
    -- the first key opens a run, and ranks from one on only shift the lines
    have hbreaks : greedyBreaks (FitsBands .int64 e) [(key, 1)] (ranked 2 keys) =
        greedyBreaks (FitsBands .int64 e) [] (ranked 1 (key :: keys)) :=
      (greedyBreaks_of_fits hfirst).symm
    have hshift := greedyBreaks_map (P := FitsBands .int64 e)
      (fun p : ℤ × ℤ => (p.1, p.2 + 1)) [] (ranked 0 (key :: keys))
    rw [List.map_nil, ← ranked_shift, zero_add] at hshift
    have hsingle : ∀ p ∈ ranked 0 (key :: keys),
        FitsBands .int64 e ([p].map fun p => (p.1, p.2 + 1)) := by
      intro p hp
      refine fitsBands_singleton (by omega) (hmem _ ?_)
      rw [← zero_add (1 : ℤ), ranked_shift]
      exact List.mem_map_of_mem hp
    rw [hbreaks, hshift, Nat.add_comm,
      ← cutSizes_congr fun r hr => fitsBands_int64_iff he fun p hp => hrank p (hr hp)]
    exact isLeast_greedyBreaks ((fitsBands_hereditary .int64 e).map _) hsingle
      (ranked_ne_nil (by simp))
  have hkey : wrapInt64 key = key := by
    obtain ⟨h0, h1⟩ := hkeys key (by simp)
    exact wrapInt64_of_lt h0 h1
  have hrest : keys.map wrapInt64 = keys := by
    refine (List.map_congr_left fun x hx => ?_).trans keys.map_id
    obtain ⟨h0, h1⟩ := hkeys x (by simp [hx])
    exact wrapInt64_of_lt h0 h1
  refine ⟨_, _, ?_, hleast eL heL, hleast eG heG⟩
  rw [verificationPass, hkey, hrest, hpassL, hpassG]
  simp only [bind, Except.bind]
  rw [verificationLoop_eq htracksL htracksG (by omega) (by omega), hvalueL, hvalueG]

end LearnedIndexFramework.Metric
