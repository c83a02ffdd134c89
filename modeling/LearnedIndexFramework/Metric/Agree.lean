import LearnedIndexFramework.Metric.Optimal

/-! The hardness that `dataGenerator` reports against the one that `PGM_metric` measures.  The
bands differ only at ranks below the error bound, where `PGM_metric` clamps them at zero. -/

namespace LearnedIndexFramework.Metric

open Lib

theorem FitsRun.fitsRanks {e : ℕ} {run : List (ℤ × ℤ)} (h : FitsRun e run) : FitsRanks e run := by
  obtain ⟨a, b, hab⟩ := h
  exact ⟨a, b, fun p hp => ⟨(le_max_right _ _).trans (hab p hp).1, (hab p hp).2⟩⟩

theorem FitsRanks.fitsRun {e : ℕ} {run : List (ℤ × ℤ)} (h : FitsRanks e run)
    (hrun : ∀ p ∈ run, (e : ℤ) ≤ p.2) : FitsRun e run := by
  obtain ⟨a, b, hab⟩ := h
  refine ⟨a, b, fun p hp => ⟨?_, (hab p hp).2⟩⟩
  have hclamp : (0 : ℚ) ≤ p.2 - e := sub_nonneg.mpr (by exact_mod_cast hrun p hp)
  rw [max_eq_right hclamp]
  exact (hab p hp).1

theorem fitsRanks_hereditary (e : ℕ) : Hereditary (FitsRanks e) where
  left := by
    rintro s t ⟨a, b, hab⟩
    exact ⟨a, b, fun p hp => hab p (by simp [hp])⟩
  right := by
    rintro s t ⟨a, b, hab⟩
    exact ⟨a, b, fun p hp => hab p (by simp [hp])⟩

section Prefix

variable {e k : ℕ} {keys : List ℤ} {runs : List (List (ℤ × ℤ))}

theorem fitsRun_take (e : ℕ) (keys : List ℤ) : FitsRun e ((ranked 0 keys).take e) := by
  refine ⟨0, e, fun p hp => ?_⟩
  rw [ranked_take] at hp
  obtain ⟨-, hlo, hhi⟩ := mem_ranked hp
  have hlen : (keys.take e).length ≤ e := List.length_take_le e keys
  have h0 : (0 : ℚ) ≤ p.2 := by exact_mod_cast hlo
  have hlt : (p.2 : ℚ) ≤ e := by
    have : p.2 ≤ e := by omega
    exact_mod_cast this
  have he : (0 : ℚ) ≤ e := Nat.cast_nonneg e
  constructor
  · exact max_le (by linarith) (by linarith)
  · linarith

theorem fitsRun_of_drop (h : IsCut (FitsRanks e) ((ranked 0 keys).drop k) runs)
    (hk : e ≤ k) : IsCut (FitsRun e) ((ranked 0 keys).drop k) runs := by
  refine h.mono fun r hr hfits => hfits.fitsRun fun p hp => ?_
  have hp' : p ∈ (ranked 0 keys).drop k := h.flatten ▸ List.mem_flatten.mpr ⟨r, hr, hp⟩
  rw [ranked_drop] at hp'
  have := (mem_ranked hp').2.1
  omega

theorem exists_cut_of_drop (hkeys : keys ≠ [])
    (h : IsCut (FitsRanks e) ((ranked 0 keys).drop e) runs) :
    ∃ runs', IsCut (FitsRun e) (ranked 0 keys) runs' ∧ runs'.length ≤ runs.length + 1 := by
  have htail := fitsRun_of_drop h le_rfl
  rcases Nat.eq_zero_or_pos e with rfl | he
  · exact ⟨runs, by simpa using htail, by omega⟩
  · exact ⟨_, htail.cons_take he (ranked_ne_nil hkeys) (fitsRun_take e keys), by simp⟩

end Prefix

/-- Some least cut of the keys into runs within the plain bands begins with a run whose line
need not go below rank zero. -/
def StartsAboveZero (e : ℕ) (keys : List ℤ) : Prop :=
  ∃ run runs, IsCut (FitsRanks e) (ranked 0 keys) (run :: runs) ∧
    IsLeast (cutSizes (FitsRanks e) (ranked 0 keys)) (run :: runs).length ∧ FitsRun e run

section Least

variable {e m n : ℕ} {keys : List ℤ}

theorem least_le_least (hm : IsLeast (cutSizes (FitsRanks e) (ranked 0 keys)) m)
    (hn : IsLeast (cutSizes (FitsRun e) (ranked 0 keys)) n) : m ≤ n := by
  obtain ⟨runs, hcut, hlen⟩ := hn.1
  exact hm.2 ⟨runs, hcut.mono fun r _ => FitsRun.fitsRanks, hlen⟩

theorem least_le_succ (hkeys : keys ≠ [])
    (hm : IsLeast (cutSizes (FitsRanks e) (ranked 0 keys)) m)
    (hn : IsLeast (cutSizes (FitsRun e) (ranked 0 keys)) n) : n ≤ m + 1 := by
  obtain ⟨runs, hcut, rfl⟩ := hm.1
  obtain ⟨tail, htail, hle⟩ := hcut.exists_drop (fitsRanks_hereditary e) e
  obtain ⟨runs', hcut', hle'⟩ := exists_cut_of_drop hkeys htail
  have := hn.2 ⟨runs', hcut', rfl⟩
  omega

theorem least_eq_iff (hkeys : keys ≠ [])
    (hm : IsLeast (cutSizes (FitsRanks e) (ranked 0 keys)) m)
    (hn : IsLeast (cutSizes (FitsRun e) (ranked 0 keys)) n) : n = m ↔ StartsAboveZero e keys := by
  constructor
  · rintro rfl
    obtain ⟨runs, hcut, rfl⟩ := hn.1
    cases runs with
    | nil => exact absurd hcut.flatten.symm (ranked_ne_nil hkeys)
    | cons run runs =>
      exact ⟨run, runs, hcut.mono fun r _ => FitsRun.fitsRanks, hm, hcut.fits run (by simp)⟩
  · rintro ⟨run, runs, hcut, hleast, hrun⟩
    obtain rfl : m = (run :: runs).length := hm.unique hleast
    refine le_antisymm ?_ (least_le_least hm hn)
    have hrest : IsCut (FitsRanks e) ((ranked 0 keys).drop run.length) runs := hcut.tail
    -- the second run starts either where nothing is clamped or inside the first `e` ranks
    rcases le_total e run.length with hlong | hshort
    · refine hn.2 ⟨run :: runs, ⟨hcut.flatten, hcut.ne_nil, fun r hr => ?_⟩, rfl⟩
      rcases List.mem_cons.mp hr with rfl | hr
      · exact hrun
      · exact (fitsRun_of_drop hrest hlong).fits r hr
    · obtain ⟨tail, htail, hle⟩ := hrest.exists_drop (fitsRanks_hereditary e) (e - run.length)
      rw [List.drop_drop, Nat.add_sub_cancel' hshort] at htail
      obtain ⟨runs', hcut', hle'⟩ := exists_cut_of_drop hkeys htail
      have := hn.2 ⟨runs', hcut', rfl⟩
      simp only [List.length_cons]
      omega

end Least

/-- For each of its two error bounds the verification pass of `dataGenerator` finds the value
of `PGM_metric` for the same keys, or one less; they agree exactly when some least cut begins
with a run that a line fits without going below rank zero. -/
theorem Generator.verificationPass_agrees (key : ℤ) (keys : List ℤ) (eL eG : ℕ)
    (hsorted : (key :: keys).Pairwise (· < ·)) (hkeys : ∀ x ∈ key :: keys, 0 ≤ x ∧ x < 2 ^ 63)
    (hlen : (key :: keys).length < 2 ^ 31) (heL : eL < 2 ^ 31) (heG : eG < 2 ^ 31) :
    ∃ l g metricL mseL metricG mseG, verificationPass eL eG key keys = .ok (l, g) ∧
      PgmMetric.PGMMetric (key :: keys) eL = .ok (metricL, mseL) ∧
      PgmMetric.PGMMetric (key :: keys) eG = .ok (metricG, mseG) ∧
      (StartsAboveZero eL (key :: keys) → metricL = l) ∧
      (¬ StartsAboveZero eL (key :: keys) → metricL = l + 1) ∧
      (StartsAboveZero eG (key :: keys) → metricG = g) ∧
      (¬ StartsAboveZero eG (key :: keys) → metricG = g + 1) := by
  have hne : key :: keys ≠ [] := by simp
  obtain ⟨l, g, hpass, hl, hg⟩ := verificationPass_spec key keys eL eG hsorted hkeys hlen heL heG
  obtain ⟨mseL, hL⟩ := PGMMetric_eq (e := eL) hsorted hlen
  obtain ⟨mseG, hG⟩ := PGMMetric_eq (e := eG) hsorted hlen
  have hboth : ∀ {e m n : ℕ}, IsLeast (cutSizes (FitsRanks e) (ranked 0 (key :: keys))) m →
      IsLeast (cutSizes (FitsRun e) (ranked 0 (key :: keys))) n →
      (StartsAboveZero e (key :: keys) → n = m) ∧
        (¬ StartsAboveZero e (key :: keys) → n = m + 1) := by
    intro e m n hm hn
    have hiff := least_eq_iff hne hm hn
    have hle := least_le_least hm hn
    have hge := least_le_succ hne hm hn
    refine ⟨hiff.mpr, fun hnot => ?_⟩
    have : n ≠ m := fun heq => hnot (hiff.mp heq)
    omega
  obtain ⟨h1, h2⟩ := hboth hl (fitsRun_isLeast hne hlen heL)
  obtain ⟨h3, h4⟩ := hboth hg (fitsRun_isLeast hne hlen heG)
  exact ⟨l, g, _, mseL, _, mseG, hpass, hL, hG, h1, h2, h3, h4⟩

theorem Generator.verificationPass_agrees_five_keys :
    ¬ StartsAboveZero 1 [0, 100, 113, 126, 140] ∧
      (PgmMetric.PGMMetric [0, 100, 113, 126, 140] 2).map Prod.fst = .ok 1 := by
  obtain ⟨l, g, metricL, mseL, metricG, mseG, hpass, hL, hG, h1, -, -, -⟩ :=
    verificationPass_agrees 0 [100, 113, 126, 140] 1 2 (by decide) (by decide) (by decide)
      (by decide) (by decide)
  have hcounts : verificationPass 1 2 0 [100, 113, 126, 140] = .ok (1, 1) := by decide +kernel
  have hmetric : (PgmMetric.PGMMetric [0, 100, 113, 126, 140] 1).map Prod.fst = .ok 2 := by
    decide +kernel
  refine ⟨fun hstart => ?_, by decide +kernel⟩
  rw [hL] at hmetric
  obtain ⟨rfl, rfl⟩ : (1, 1) = (l, g) := Except.ok.inj (hcounts.symm.trans hpass)
  have h2 : metricL = 2 := Except.ok.inj hmetric
  have := h1 hstart
  omega

theorem Generator.verificationPass_ne_PGMMetric :
    verificationPass 1 1 0 [100, 113, 126, 140] = .ok (1, 1) ∧
      (PgmMetric.PGMMetric [0, 100, 113, 126, 140] 1).map Prod.fst = .ok 2 := by
  constructor <;> decide +kernel

end LearnedIndexFramework.Metric
