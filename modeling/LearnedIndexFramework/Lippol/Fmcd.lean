import LearnedIndexFramework.Lib.Fallible
import LearnedIndexFramework.Lippol.Entries
import Mathlib.Tactic.FieldSimp
import Mathlib.Tactic.Positivity

/-! The model of a bulk-built node.  In exact arithmetic both ways to fit it send two of the keys
to different slots, so no segment is handed on unchanged. -/

namespace LearnedIndexFramework.Lippol

open Lib

def Increasing (keys : List ℕ) : Prop :=
  ∀ i j, i < j → j < keys.length → keys.getD i 0 < keys.getD j 0

theorem Increasing.le {keys : List ℕ} (h : Increasing keys) {i j : ℕ} (hij : i ≤ j)
    (hj : j < keys.length) : (keys.getD i 0 : ℚ) ≤ keys.getD j 0 := by
  rcases hij.lt_or_eq with hlt | rfl
  · exact_mod_cast (h i j hlt hj).le
  · exact le_rfl

section Position

variable {fp : Precision} {h : Header fp} {k t : ℕ}

theorem predictPos_lt_of_lt (ht : 0 < t) (hmax : t ≤ 1073741823) (hv : h.predictDouble k < t) :
    h.predictPos k < t := by
  have hcast : (t : ℚ) ≤ 1073741823 := by exact_mod_cast hmax
  unfold Header.predictPos
  dsimp only
  rw [if_neg (by linarith)]
  split
  · exact ht
  · next hneg =>
    rw [truncate_of_nonneg (not_lt.mp hneg)]
    have hfloor : ⌊h.predictDouble k⌋ < t := Int.floor_lt.mpr (by exact_mod_cast hv)
    have := min_le_right (h.numItems - 1) (⌊h.predictDouble k⌋.toNat)
    omega

theorem le_predictPos (ht : t ≤ h.numItems - 1) (hv : (t : ℚ) ≤ h.predictDouble k) :
    t ≤ h.predictPos k := by
  have h0 : (0 : ℚ) ≤ h.predictDouble k := le_trans (Nat.cast_nonneg t) hv
  unfold Header.predictPos
  dsimp only
  split
  · exact ht
  rw [if_neg (not_lt.mpr h0), truncate_of_nonneg h0]
  have hfloor : (t : ℤ) ≤ ⌊h.predictDouble k⌋ := Int.le_floor.mpr (by exact_mod_cast hv)
  exact le_min ht (by omega)

end Position

section Fmcd

variable {keys : List ℕ} {L D i : ℕ} {ut : ℚ}

theorem fmcdUt_exact (keys : List ℕ) (L D : ℕ) : fmcdUt .exact keys L D =
    ((keys.getD (keys.length - 1 - D) 0 : ℚ) - keys.getD D 0) / ((L : ℚ) - 2) + 1 / 1000000 := rfl

theorem fmcdUt_pos (hkeys : Increasing keys) (hL : 2 < L) (hD : D ≤ keys.length - 1 - D)
    (hlen : 0 < keys.length) : 0 < fmcdUt .exact keys L D := by
  have hle := hkeys.le hD (by omega)
  have hL' : (0 : ℚ) < (L : ℚ) - 2 := by
    have : (2 : ℚ) < L := by exact_mod_cast hL
    linarith
  have := div_nonneg (sub_nonneg.mpr hle) hL'.le
  rw [fmcdUt_exact]
  linarith

theorem fmcdUt_succ_le (hkeys : Increasing keys) (hL : 2 < L) (hD : D + 1 < keys.length) :
    fmcdUt .exact keys L (D + 1) ≤ fmcdUt .exact keys L D := by
  have hL' : (0 : ℚ) < (L : ℚ) - 2 := by
    have : (2 : ℚ) < L := by exact_mod_cast hL
    linarith
  have h1 := hkeys.le (show D ≤ D + 1 by omega) hD
  have h2 := hkeys.le (show keys.length - 1 - (D + 1) ≤ keys.length - 1 - D by omega) (by omega)
  have := div_le_div_of_nonneg_right (sub_le_sub h2 h1) hL'.le
  rw [fmcdUt_exact, fmcdUt_exact]
  linarith

def Spread (keys : List ℕ) (D : ℕ) (ut : ℚ) (i : ℕ) : Prop :=
  ∀ j < i, j + D < keys.length ∧ ut ≤ (keys.getD (j + D) 0 : ℚ) - keys.getD j 0

theorem fmcdAdvance_spread (n : ℕ) (h : Spread keys D ut i) :
    i ≤ fmcdAdvance .exact keys D ut n i ∧ Spread keys D ut (fmcdAdvance .exact keys D ut n i) := by
  induction n generalizing i with
  | zero => exact ⟨le_rfl, h⟩
  | succ n ih =>
    unfold fmcdAdvance
    split
    · next hstep =>
      have hnext : Spread keys D ut (i + 1) := by
        intro j hj
        rcases Nat.lt_succ_iff_lt_or_eq.mp hj with hlt | rfl
        · exact h j hlt
        · exact hstep
      obtain ⟨hle, hspread⟩ := ih hnext
      exact ⟨by omega, hspread⟩
    · exact ⟨le_rfl, h⟩

theorem fmcdLoop_spec (hkeys : Increasing keys) (hL : 2 < L) (n : ℕ)
    (hn : n + D = keys.length + 1) (hD : 1 ≤ D) (h3 : D * 3 ≤ keys.length)
    (h : Spread keys D (fmcdUt .exact keys L D) i) :
    ∃ D' ut, fmcdLoop .exact keys L n i D (fmcdUt .exact keys L D) = .ok (D', ut) ∧
      (D' * 3 ≤ keys.length → 1 ≤ D' ∧ ut = fmcdUt .exact keys L D' ∧ Spread keys D' ut 1) := by
  induction n generalizing i D with
  | zero => omega
  | succ n ih =>
    have hfirst : ∀ i, 0 < i → Spread keys D (fmcdUt .exact keys L D) i →
        Spread keys D (fmcdUt .exact keys L D) 1 := fun i hi hs j hj => hs j (by omega)
    unfold fmcdLoop
    split
    · next hhead =>
      obtain ⟨hle, hspread⟩ := fmcdAdvance_spread keys.length h
      generalize fmcdAdvance .exact keys D (fmcdUt .exact keys L D) keys.length i = i' at hle hspread ⊢
      dsimp only
      split
      · next hbreak => exact ⟨_, _, rfl, fun _ => ⟨hD, rfl, hfirst i' (by omega) hspread⟩⟩
      · next hcontinue =>
        split
        · next hlarge => exact ⟨_, _, rfl, fun hsmall => by omega⟩
        · next hsmall =>
          have hassert : rtAssert (D + 1 ≤ keys.length - 1 - (D + 1)) "D <= size - 1 - D" =
              .ok () := if_pos (by omega)
          rw [hassert]
          refine ih (by omega) (by omega) (by omega) fun j hj => ?_
          obtain ⟨hrange, hpair⟩ := hspread j hj
          have hut := fmcdUt_succ_le hkeys hL (show D + 1 < keys.length by omega)
          have hmono := hkeys.le (show j + D ≤ j + (D + 1) by omega) (by omega)
          exact ⟨by omega, by linarith⟩
    · next hhead => exact ⟨_, _, rfl, fun _ => ⟨hD, rfl, hfirst i (by omega) h⟩⟩

end Fmcd

section Separate

variable {keys : List ℕ} {L D : ℕ} {h : Header .exact}

theorem predictDouble_exact (h : Header .exact) (key : ℕ) : h.predictDouble key = h.a * key + h.b :=
  rfl

theorem fmcdModel_separates (hkeys : Increasing keys) (hL : 2 < L) (hmax : L ≤ 2147483646)
    (hD : 1 ≤ D) (h3 : D * 3 ≤ keys.length) (hspread : Spread keys D (fmcdUt .exact keys L D) 1)
    (hnum : h.numItems = L) (ha : h.a = 1 / fmcdUt .exact keys L D)
    (hb : h.b = ((L : ℚ) - h.a * ((keys.getD (keys.length - 1 - D) 0 : ℚ) + keys.getD D 0)) / 2) :
    h.predictPos (keys.getD 0 0) < h.predictPos (keys.getD D 0) := by
  have hut := fmcdUt_pos hkeys hL (show D ≤ keys.length - 1 - D by omega) (by omega)
  have hpair : fmcdUt .exact keys L D ≤ (keys.getD D 0 : ℚ) - keys.getD 0 0 := by
    simpa using (hspread 0 (by omega)).2
  have hends := hkeys.le (show D ≤ keys.length - 1 - D by omega) (by omega)
  generalize hk0 : keys.getD 0 0 = k0 at hpair ⊢
  generalize hk1 : keys.getD D 0 = k1 at hpair hends hb ⊢
  have hLq : (2 : ℚ) < L := by exact_mod_cast hL
  have hut_eq : fmcdUt .exact keys L D =
      ((keys.getD (keys.length - 1 - D) 0 : ℚ) - k1) / ((L : ℚ) - 2) + 1 / 1000000 := by
    rw [fmcdUt_exact, hk1]
  generalize (keys.getD (keys.length - 1 - D) 0 : ℚ) = K at hends hb hut_eq
  generalize fmcdUt .exact keys L D = ut at hut hpair ha hut_eq
  have hapos : 0 ≤ h.a := by rw [ha]; positivity
  -- the keys that the model centres span less than `L - 2` slots
  have hspan : h.a * (K - k1) < L - 2 := by
    have hlt : K - k1 < ut * (L - 2) := by
      rw [hut_eq, add_mul, div_mul_cancel₀ _ (by linarith)]
      linarith
    rw [ha, one_div, inv_mul_lt_iff₀ hut]
    exact hlt
  have hstep : 1 ≤ h.a * ((k1 : ℚ) - k0) := by
    rw [ha, one_div, le_inv_mul_iff₀ hut]
    linarith
  have hv1 : h.predictDouble k1 = L / 2 - h.a * (K - k1) / 2 := by
    rw [predictDouble_exact, hb]
    ring
  have hv0 : h.predictDouble k0 = h.predictDouble k1 - h.a * ((k1 : ℚ) - k0) := by
    rw [predictDouble_exact, predictDouble_exact]
    ring
  have hspan0 : 0 ≤ h.a * (K - k1) := mul_nonneg hapos (sub_nonneg.mpr hends)
  obtain ⟨t, ht⟩ : ∃ t : ℕ, (t : ℤ) = ⌊h.predictDouble k1⌋ :=
    ⟨_, Int.toNat_of_nonneg (Int.floor_nonneg.mpr (by rw [hv1]; linarith))⟩
  have htq : ((t : ℕ) : ℚ) = (⌊h.predictDouble k1⌋ : ℚ) := by rw [← ht]; simp
  have hle : (t : ℚ) ≤ h.predictDouble k1 := htq ▸ Int.floor_le _
  have hlt : h.predictDouble k1 < t + 1 := htq ▸ Int.lt_floor_add_one _
  have htpos : 0 < t := by
    have : (0 : ℚ) < t := by linarith
    exact_mod_cast this
  have hhalf : 2 * t ≤ L := by
    have : (2 : ℚ) * t ≤ L := by linarith
    exact_mod_cast this
  calc h.predictPos k0 < t := predictPos_lt_of_lt htpos (by omega) (by rw [hv0]; linarith)
    _ ≤ h.predictPos k1 := le_predictPos (by omega) hle

theorem assertFinite_eq_ok {divisor : ℚ} (h : divisor ≠ 0) : assertFinite divisor = .ok () :=
  if_pos h

theorem midModel_separates {gap : ℕ} (hkeys : Increasing keys) (hlen : 3 ≤ keys.length)
    (hgap : 1 ≤ gap) (hL : keys.length * (gap + 1) ≤ 2147483646) :
    ∃ a b, midModel .exact keys gap = .ok (a, b) ∧ 0 ≤ a ∧
      ∀ h : Header .exact, h.numItems = keys.length * (gap + 1) → h.a = a → h.b = b →
        h.predictPos (keys.getD ((keys.length - 1) / 3) 0) <
          h.predictPos (keys.getD ((keys.length - 1) * 2 / 3 + 1) 0) := by
  have hm12 : (keys.length - 1) / 3 < (keys.length - 1) * 2 / 3 := by
    rcases Nat.lt_or_eq_of_le hlen with hlt | heq
    · omega
    · rw [← heq]
      decide
  have hm2 : (keys.length - 1) * 2 / 3 < keys.length - 1 := by omega
  have hm1 : 2 * ((keys.length - 1) / 3) + 1 ≤ keys.length := by omega
  simp only [midModel, rtAssert, if_pos (Nat.zero_le _), if_pos hm12, if_pos hm2,
    Precision.exact_longDouble, Precision.exact_double]
  generalize (keys.length - 1) / 3 = m1 at *
  generalize (keys.length - 1) * 2 / 3 = m2 at *
  have hk1 : (keys.getD m1 0 : ℚ) < keys.getD (m1 + 1) 0 := by
    exact_mod_cast hkeys m1 (m1 + 1) (by omega) (by omega)
  have hk2 : (keys.getD m2 0 : ℚ) < keys.getD (m2 + 1) 0 := by
    exact_mod_cast hkeys m2 (m2 + 1) (by omega) (by omega)
  have hk12 := hkeys.le (show m1 + 1 ≤ m2 by omega) (by omega)
  have hdivisor : 0 < ((keys.getD m2 0 : ℚ) + keys.getD (m2 + 1) 0) / 2 -
      ((keys.getD m1 0 : ℚ) + keys.getD (m1 + 1) 0) / 2 := by linarith
  rw [assertFinite_eq_ok hdivisor.ne']
  refine ⟨_, _, rfl, ?_⟩
  have hq : 2 ≤ gap + 1 := by omega
  generalize gap + 1 = q at *
  have ht12 : m1 * q + q / 2 < m2 * q + q / 2 := by
    have := Nat.mul_lt_mul_of_pos_right hm12 (show 0 < q by omega)
    omega
  have ht1 : 2 * (m1 * q + q / 2) ≤ keys.length * q := by
    have := Nat.mul_le_mul_right q hm1
    have : (2 * m1 + 1) * q = 2 * (m1 * q) + q := by ring
    omega
  have hpos : 0 < (((m2 * q + q / 2 : ℕ) : ℚ) - (m1 * q + q / 2 : ℕ)) /
      (((keys.getD m2 0 : ℚ) + keys.getD (m2 + 1) 0) / 2 -
        ((keys.getD m1 0 : ℚ) + keys.getD (m1 + 1) 0) / 2) := by
    have : ((m1 * q + q / 2 : ℕ) : ℚ) < (m2 * q + q / 2 : ℕ) := by exact_mod_cast ht12
    exact div_pos (by linarith) hdivisor
  refine ⟨hpos.le, fun h hnum ha hb => ?_⟩
  rw [← ha] at hb hpos
  calc h.predictPos (keys.getD m1 0) < m1 * q + q / 2 := by
        refine predictPos_lt_of_lt (by omega) (by omega) ?_
        have := mul_lt_mul_of_pos_left hk1 hpos
        rw [predictDouble_exact, hb]
        linarith
    _ ≤ h.predictPos (keys.getD (m2 + 1) 0) := by
        refine le_predictPos (by omega) ?_
        have := mul_lt_mul_of_pos_left (hk1.trans_le (hk12.trans hk2.le)) hpos
        have := mul_le_mul_of_nonneg_left (hk12.trans hk2.le) hpos.le
        rw [predictDouble_exact, hb]
        linarith

end Separate

structure Fits {fp : Precision} (keys : List ℕ) (h : Header fp) : Prop where
  isTwo : h.isTwo = false
  size_eq : h.size = keys.length
  numItems_pos : 0 < h.numItems
  slope_nonneg : 0 ≤ h.a

theorem fits_of_bulkHeader {fp : Precision} {keys : List ℕ} {h : Header fp}
    (hlen : 0 < keys.length) (hheader : bulkHeader keys = .ok h) : Fits keys h := by
  unfold bulkHeader at hheader
  dsimp only at hheader
  split at hheader
  · cases hheader
  obtain ⟨-, -, hheader⟩ := bind_eq_ok.mp hheader
  obtain ⟨⟨D, ut⟩, -, hheader⟩ := bind_eq_ok.mp hheader
  obtain ⟨⟨a, b⟩, -, hheader⟩ := bind_eq_ok.mp hheader
  obtain ⟨_, hassert, hret⟩ := bind_eq_ok.mp hheader
  cases hret
  refine ⟨rfl, rfl, Nat.mul_pos hlen (Nat.succ_pos _), ?_⟩
  by_contra hneg
  cases (if_neg hneg : rtAssert (a ≥ 0) "node->model.a >= 0" = .error _).symm.trans hassert

theorem computeGapCount_cases (size : ℕ) : computeGapCount size = 1 ∧ 1000000 ≤ size ∨
    computeGapCount size = 2 ∧ size < 1000000 ∨ computeGapCount size = 5 ∧ size < 1000000 := by
  unfold computeGapCount
  split
  · exact .inl ⟨rfl, by assumption⟩
  split
  · exact .inr (.inl ⟨rfl, by omega⟩)
  · exact .inr (.inr ⟨rfl, by omega⟩)

theorem bulkHeader_separates {keys : List ℕ} (hkeys : Increasing keys) (hlen : 3 ≤ keys.length)
    (hmax : keys.length < 2 ^ 30) :
    ∃ h : Header .exact, bulkHeader keys = .ok h ∧
      ∃ i j, i < keys.length ∧ j < keys.length ∧
        h.predictPos (keys.getD i 0) < h.predictPos (keys.getD j 0) := by
  have hgap : 1 ≤ computeGapCount keys.length ∧
      keys.length * (computeGapCount keys.length + 1) ≤ 2147483646 := by
    rcases computeGapCount_cases keys.length with ⟨h, -⟩ | ⟨h, hlt⟩ | ⟨h, hlt⟩ <;> rw [h] <;> omega
  obtain ⟨hgap1, hL⟩ := hgap
  have hL2 : 2 < keys.length * (computeGapCount keys.length + 1) := by
    have := Nat.mul_le_mul hlen (show 2 ≤ computeGapCount keys.length + 1 by omega)
    omega
  obtain ⟨D, ut, hloop, hfound⟩ := fmcdLoop_spec hkeys hL2 keys.length rfl le_rfl (by omega)
    (show Spread keys 1 (fmcdUt .exact keys _ 1) 0 from fun j hj => absurd hj (Nat.not_lt_zero j))
  have hno : ¬ 2 ^ 31 ≤ keys.length * (computeGapCount keys.length + 1) := by omega
  have hone : 1 ≤ keys.length - 1 - 1 := by omega
  simp only [bulkHeader, if_neg hno, rtAssert, if_pos hone, hloop, bind, Except.bind]
  by_cases hD : D * 3 ≤ keys.length
  · obtain ⟨hD1, rfl, hspread⟩ := hfound hD
    have hut := fmcdUt_pos hkeys hL2 (show D ≤ keys.length - 1 - D by omega) (by omega)
    have hslope : 1 / fmcdUt .exact keys (keys.length * (computeGapCount keys.length + 1)) D ≥ 0 :=
      by positivity
    simp only [if_pos hD, fmcdModel, assertFinite_eq_ok hut.ne', Precision.exact_double, bind,
      Except.bind, pure, Except.pure, if_pos hslope]
    refine ⟨_, rfl, 0, D, by omega, by omega, ?_⟩
    exact fmcdModel_separates hkeys hL2 hL hD1 hD hspread rfl rfl rfl
  · obtain ⟨a, b, hmid, ha, hsep⟩ := midModel_separates hkeys hlen hgap1 hL
    simp only [if_neg hD, hmid, if_pos ha]
    exact ⟨_, rfl, _, _, by omega, by omega, hsep _ rfl rfl rfl⟩

end LearnedIndexFramework.Lippol
