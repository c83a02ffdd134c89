import LearnedIndexFramework.Pgm.Segmentation

/-! What a segment predicts: a position within its slack at every key between the points of its run,
in spite of the single-precision product. -/

namespace LearnedIndexFramework.Pgm

open Lib LearnedIndexFramework.Metric

structure Fits (epsilon : ℕ) (run : List (ℤ × ℤ)) (s : Segment) : Prop where
  key : ∀ p ∈ run.head?, s.key = p.1
  line : ∃ slope icept : ℚ, 0 ≤ slope ∧ slope ≤ 2 * epsilon + 1 ∧
    s.slope = roundTo 24 (roundTo 64 slope) ∧ |(s.intercept : ℚ) - icept| ≤ 1 / 2 ∧
    ∀ p ∈ run, (p.2 : ℚ) - epsilon ≤ slope * (p.1 - s.key) + icept ∧
      slope * (p.1 - s.key) + icept ≤ p.2 + epsilon
  intercept : ∀ p ∈ run.head?,
    p.2 - epsilon ≤ s.intercept ∧ s.intercept ≤ p.2 + epsilon ∧ 0 ≤ s.intercept
  steep : s.slope = 0 → run.length ≤ 1
  fitsBands : FitsBands .uint64 epsilon run

section Conversion

variable {epsilon : ℕ} {run : List (ℤ × ℤ)} {c : Generator.CanonicalSegment}

theorem bandHi_eq {y : ℤ} (hy : y + epsilon < 2 ^ 31) : bandHi .uint64 epsilon y = y + epsilon := by
  rw [bandHi_eq_min]
  simp only [Limits.uint64]
  omega

theorem bandLo_eq (y : ℤ) : bandLo .uint64 epsilon y = max 0 (y - epsilon) := bandLo_eq_max

theorem rising_of_lt (hrising : run.Pairwise Rising) {p q : ℤ × ℤ} (hp : p ∈ run) (hq : q ∈ run)
    (hlt : p.1 < q.1) : Rising p q := by
  induction run with
  | nil => cases hp
  | cons r run ih =>
    obtain ⟨hr, hrun⟩ := List.pairwise_cons.mp hrising
    rcases List.mem_cons.mp hp with rfl | hp'
    · rcases List.mem_cons.mp hq with rfl | hq'
      · exact absurd hlt (lt_irrefl _)
      · exact hr q hq'
    · rcases List.mem_cons.mp hq with rfl | hq'
      · exact absurd hlt (hr p hp').lt.not_gt
      · exact ih hrun hp' hq'

theorem Segment.ofCanonical_single {p : ℤ × ℤ} (hp : 0 ≤ p.2 ∧ p.2 + epsilon < 2 ^ 31)
    (hc : Covers epsilon c [p]) : ∃ s, Segment.ofCanonical c = .ok s ∧ Fits epsilon [p] s := by
  cases hc with
  | spans hlen _ => simp at hlen
  | single p =>
    have hy : (bandHi .uint64 epsilon p.2 + bandLo .uint64 epsilon p.2).tdiv 2 =
        (p.2 + epsilon + max 0 (p.2 - epsilon)) / 2 := by
      rw [bandHi_eq hp.2, bandLo_eq, Int.tdiv_eq_ediv_of_nonneg (by omega)]
    set y := (p.2 + epsilon + max 0 (p.2 - epsilon)) / 2 with hydef
    have hsmall : ¬2 ^ 31 - 1 < y := by omega
    refine ⟨⟨p.1, roundTo 24 (roundTo 64 0), wrapInt y⟩, ?_, ?_⟩
    · rw [Segment.ofCanonical, Generator.CanonicalSegment.getFloatingPointSegment,
        if_pos (by simp [Generator.CanonicalSegment.onePoint])]
      simp only [bandEnd, hy]
      rw [if_neg hsmall]
    · have hwrap : wrapInt y = y := wrapInt_of_lt (by omega) (by omega)
      have hlo : p.2 - epsilon ≤ y := by omega
      have hhi : y ≤ p.2 + epsilon := by omega
      have hlo' : (p.2 : ℚ) - epsilon ≤ y := by exact_mod_cast hlo
      have hhi' : (y : ℚ) ≤ p.2 + epsilon := by exact_mod_cast hhi
      refine ⟨by simp, ⟨0, y, le_rfl, by positivity, rfl, by simp [hwrap], ?_⟩, ?_, by simp, ?_⟩
      · intro q hq
        obtain rfl := List.mem_singleton.mp hq
        simp only [zero_mul, zero_add]
        exact ⟨hlo', hhi'⟩
      · intro q hq
        obtain rfl : p = q := by simpa using hq
        simp only [hwrap]
        omega
      · refine fitsBands_of_near (p := p) (by omega) fun q hq => ?_
        obtain rfl := List.mem_singleton.mp hq
        omega

theorem slope_bounds (hrank : ∀ p ∈ run, 0 ≤ p.2 ∧ p.2 + epsilon < 2 ^ 31)
    (hrising : run.Pairwise Rising) {h : Hull} (hs : Spans .uint64 epsilon h run) :
    0 < (lineOf h.rectangle.r1 h.rectangle.r3).slope ∧
      (lineOf h.rectangle.r1 h.rectangle.r3).slope ≤ 2 * epsilon + 1 := by
  obtain ⟨p, hp, hr1⟩ := hs.lower
  obtain ⟨q, hq, hr3⟩ := hs.upper
  have hlt := hs.lt
  rw [hr1, hr3] at hlt ⊢
  obtain ⟨hrank₁, hrank₂⟩ := rising_of_lt hrising hp hq hlt
  have hp' := hrank p hp
  have hlo : p.2 - epsilon ≤ bandLo .uint64 epsilon p.2 ∧ bandLo .uint64 epsilon p.2 ≤ p.2 := by
    rw [bandLo_eq]
    omega
  have hdx : 0 < q.1 - p.1 := by
    simp only [bandEnd] at hlt
    omega
  have hdy : 0 < q.2 + epsilon - bandLo .uint64 epsilon p.2 := by omega
  have hle : q.2 + epsilon - bandLo .uint64 epsilon p.2 ≤ (2 * epsilon + 1) * (q.1 - p.1) := by
    have hmul : 2 * epsilon * 1 ≤ 2 * epsilon * (q.1 - p.1) :=
      mul_le_mul_of_nonneg_left hdx (by positivity)
    have hexpand : (2 * epsilon + 1) * (q.1 - p.1) = 2 * epsilon * (q.1 - p.1) + (q.1 - p.1) := by
      ring
    omega
  have hslope :
      (lineOf (bandEnd .uint64 epsilon .lower p) (bandEnd .uint64 epsilon .upper q)).slope =
      (q.2 + epsilon - bandLo .uint64 epsilon p.2 : ℤ) / (q.1 - p.1 : ℤ) := by
    simp only [lineOf, Line.through, bandEnd]
    rw [bandHi_eq (hrank q hq).2]
    push_cast
    rfl
  have hdx' : (0 : ℚ) < (q.1 - p.1 : ℤ) := Int.cast_pos.mpr hdx
  rw [hslope]
  refine ⟨div_pos (Int.cast_pos.mpr hdy) hdx', ?_⟩
  rw [div_le_iff₀ hdx']
  exact_mod_cast hle

theorem Segment.ofCanonical_spans (hlen : 2 ≤ run.length)
    (hrank : ∀ p ∈ run, 0 ≤ p.2 ∧ p.2 + epsilon < 2 ^ 31) (hrising : run.Pairwise Rising)
    (hs : Spans .uint64 epsilon (hullOf epsilon c) run) :
    ∃ s, Segment.ofCanonical c = .ok s ∧ Fits epsilon run s := by
  obtain ⟨head, rest, hrun⟩ := List.exists_cons_of_length_pos (Nat.zero_lt_of_lt hlen)
  have hheadmem : head ∈ run := hrun ▸ List.mem_cons_self
  have hfirst : c.first = head.1 := hs.firstX head (by rw [hrun]; rfl)
  have hhead := hrank head hheadmem
  obtain ⟨hpos, hle⟩ := slope_bounds hrank hrising hs
  have hslope := hs.slope_eq c.first
  have hround := hs.abs_intercept_sub_le c.first
  have heval := hs.eval_eq c.first
  have hband := hs.steepest
  rw [hslope] at heval
  change (c.getFloatingPointSegment c.first).1 = _ at hslope
  change |((c.getFloatingPointSegment c.first).2 : ℚ) - _| ≤ _ at hround
  generalize hvalue : c.getFloatingPointSegment c.first = value at hslope hround
  obtain ⟨slope, intercept⟩ := value
  simp only at hslope hround
  generalize lineOf (hullOf epsilon c).rectangle.r1 (hullOf epsilon c).rectangle.r3 = L at *
  subst hslope
  -- the band of the first point holds the rounded intercept, as its ends are integers
  obtain ⟨hlo, hhi⟩ := hband head hheadmem
  rw [← hfirst] at hlo hhi
  obtain ⟨hround₁, hround₂⟩ := abs_le.mp hround
  have hlo' : bandLo .uint64 epsilon head.2 ≤ intercept := by
    have hlt : ((bandLo .uint64 epsilon head.2 - 1 : ℤ) : ℚ) < intercept := by
      push_cast
      linarith
    have hlt' : bandLo .uint64 epsilon head.2 - 1 < intercept := by exact_mod_cast hlt
    omega
  have hhi' : intercept ≤ bandHi .uint64 epsilon head.2 := by
    have hlt : (intercept : ℚ) < ((bandHi .uint64 epsilon head.2 + 1 : ℤ) : ℚ) := by
      push_cast
      linarith
    have hlt' : intercept < bandHi .uint64 epsilon head.2 + 1 := by exact_mod_cast hlt
    omega
  rw [bandLo_eq] at hlo'
  rw [bandHi_eq hhead.2] at hhi'
  have hsmall : ¬2 ^ 31 - 1 < intercept := by omega
  have hwrap : wrapInt intercept = intercept := wrapInt_of_lt (by omega) (by omega)
  refine ⟨⟨c.first, roundTo 24 (roundTo 64 L.slope), wrapInt intercept⟩, ?_, ?_⟩
  · rw [Segment.ofCanonical, hvalue]
    simp only
    rw [if_neg hsmall]
  · refine ⟨fun p hp => ?_, ⟨L.slope, L.eval c.first, hpos.le, hle, rfl, ?_, fun p hp => ?_⟩,
      fun p hp => ?_, fun hzero => ?_, fitsBands_iff.mpr ⟨L, hband⟩⟩
    · rw [hrun] at hp
      obtain rfl : head = p := by simpa using hp
      exact hfirst
    · simpa only [hwrap] using hround
    · obtain ⟨hlo, hhi⟩ := hband p hp
      rw [heval] at hlo hhi
      rw [bandHi_eq (hrank p hp).2] at hhi
      have hlo₀ : ((p.2 - epsilon : ℤ) : ℚ) ≤ bandLo .uint64 epsilon p.2 := by
        rw [bandLo_eq, Int.cast_le]
        exact le_max_right _ _
      push_cast at hlo₀ hhi
      exact ⟨hlo₀.trans hlo, hhi⟩
    · rw [hrun] at hp
      obtain rfl : head = p := by simpa using hp
      simp only [hwrap]
      omega
    · exact absurd hzero (roundTo_pos (by omega) (roundTo_pos (by omega) hpos)).ne'

theorem Covers.ofCanonical (h : Covers epsilon c run)
    (hrank : ∀ p ∈ run, 0 ≤ p.2 ∧ p.2 + epsilon < 2 ^ 31) (hrising : run.Pairwise Rising) :
    ∃ s, Segment.ofCanonical c = .ok s ∧ Fits epsilon run s := by
  cases h with
  | single p => exact Segment.ofCanonical_single (hrank p List.mem_cons_self) (.single p)
  | spans hlen hs => exact Segment.ofCanonical_spans hlen hrank hrising hs

end Conversion

section Predict

variable {epsilon : ℕ} {run : List (ℤ × ℤ)} {s : Segment} {head p : ℤ × ℤ} {k : ℤ}

theorem product_bounds {slope : ℚ} (hslope : 0 ≤ slope)
    (hs : s.slope = roundTo 24 (roundTo 64 slope)) (hkey : s.key ≤ k) (hk : k - s.key < 2 ^ 64) :
    0 ≤ s.product k ∧ slope * (k - s.key) * (1 - 1 / (5 * 2 ^ 20)) ≤ s.product k ∧
      s.product k ≤ slope * (k - s.key) * (1 + 1 / (5 * 2 ^ 20)) := by
  have hmod : ((k - s.key) % 2 ^ 64 : ℤ) = k - s.key := Int.emod_eq_of_lt (by omega) hk
  have hd : (0 : ℚ) ≤ (k - s.key : ℤ) := Int.cast_nonneg (by omega)
  have hslope₆₄ := roundTo_nonneg 64 hslope
  have hslope₂₄ := roundTo_nonneg 24 hslope₆₄
  have hd₂₄ := roundTo_nonneg 24 hd
  have hprod := mul_nonneg hslope₂₄ hd₂₄
  rw [Segment.product, hs, hmod]
  push_cast at hd hd₂₄ hprod ⊢
  have hnn : 0 ≤ slope * ((k : ℚ) - s.key) := mul_nonneg hslope hd
  refine ⟨roundTo_nonneg 24 hprod, ?_, ?_⟩
  · calc slope * (k - s.key) * (1 - 1 / (5 * 2 ^ 20))
        ≤ slope * (k - s.key) * ((1 - 1 / 2 ^ 64) * (1 - 1 / 2 ^ 24) * (1 - 1 / 2 ^ 24) *
          (1 - 1 / 2 ^ 24)) := by gcongr; norm_num
      _ = slope * (1 - 1 / 2 ^ 64) * (1 - 1 / 2 ^ 24) * ((k - s.key) * (1 - 1 / 2 ^ 24)) *
          (1 - 1 / 2 ^ 24) := by ring
      _ ≤ roundTo 64 slope * (1 - 1 / 2 ^ 24) * roundTo 24 (k - s.key) * (1 - 1 / 2 ^ 24) := by
        gcongr
        · exact le_roundTo 64 hslope
        · exact le_roundTo 24 hd
      _ ≤ roundTo 24 (roundTo 64 slope) * roundTo 24 (k - s.key) * (1 - 1 / 2 ^ 24) := by
        gcongr
        exact le_roundTo 24 hslope₆₄
      _ ≤ _ := le_roundTo 24 hprod
  · calc roundTo 24 (roundTo 24 (roundTo 64 slope) * roundTo 24 (k - s.key))
        ≤ roundTo 24 (roundTo 64 slope) * roundTo 24 (k - s.key) * (1 + 1 / 2 ^ 24) :=
          roundTo_le 24 hprod
      _ ≤ roundTo 64 slope * (1 + 1 / 2 ^ 24) * roundTo 24 (k - s.key) * (1 + 1 / 2 ^ 24) := by
        gcongr
        exact roundTo_le 24 hslope₆₄
      _ ≤ slope * (1 + 1 / 2 ^ 64) * (1 + 1 / 2 ^ 24) * ((k - s.key) * (1 + 1 / 2 ^ 24)) *
          (1 + 1 / 2 ^ 24) := by
        gcongr
        · exact roundTo_le 64 hslope
        · exact roundTo_le 24 hd
      _ = slope * (k - s.key) * ((1 + 1 / 2 ^ 64) * (1 + 1 / 2 ^ 24) * (1 + 1 / 2 ^ 24) *
          (1 + 1 / 2 ^ 24)) := by ring
      _ ≤ slope * (k - s.key) * (1 + 1 / (5 * 2 ^ 20)) := by gcongr; norm_num

theorem Fits.predict_le (h : Fits epsilon run s) (hhead : run.head? = some head) (hp : p ∈ run)
    (hnarrow : p.2 - head.2 + 2 * epsilon < 5 * 2 ^ 19) (hkey : s.key ≤ k) (hle : k ≤ p.1)
    (hk : k - s.key < 2 ^ 64) :
    s.product k < 2 ^ 63 ∧ truncate (s.product k) + s.intercept ≤ p.2 + epsilon := by
  obtain ⟨slope, icept, hslope, -, hs, hround, hline⟩ := h.line
  obtain ⟨hnn, -, hup⟩ := product_bounds hslope hs hkey hk
  have hheadmem := List.mem_of_mem_head? hhead
  have hcorner := (hline head hheadmem).1
  rw [h.key head hhead, sub_self, mul_zero, zero_add] at hcorner
  have hband := (hline p hp).2
  have hround' := (abs_le.mp hround).2
  have hdist : (k : ℚ) - s.key ≤ p.1 - s.key := by
    have : (k : ℚ) ≤ p.1 := by exact_mod_cast hle
    linarith
  have hmono : slope * (k - s.key) ≤ slope * (p.1 - s.key) := by gcongr
  have hnarrow' : (p.2 : ℚ) - head.2 + 2 * epsilon < 5 * 2 ^ 19 := by exact_mod_cast hnarrow
  have hsmall : slope * (k - s.key) < 5 * 2 ^ 19 := by linarith
  have hprod : s.product k < slope * (p.1 - s.key) + 1 / 2 := by linarith
  refine ⟨by linarith, ?_⟩
  have htrunc : (truncate (s.product k) : ℚ) ≤ s.product k := by
    rw [truncate, if_pos hnn]
    exact Int.floor_le _
  have hlt : ((truncate (s.product k) + s.intercept : ℤ) : ℚ) < ((p.2 + epsilon + 1 : ℤ) : ℚ) := by
    push_cast
    linarith
  have hlt' : truncate (s.product k) + s.intercept < p.2 + epsilon + 1 := by exact_mod_cast hlt
  omega

theorem Fits.le_predict (h : Fits epsilon run s) (hhead : run.head? = some head) (hp : p ∈ run)
    (hnarrow : p.2 - head.2 + 2 * epsilon < 5 * 2 ^ 19) (hkey : s.key ≤ p.1) (hle : p.1 ≤ k)
    (hk : k - s.key < 2 ^ 64) : p.2 - epsilon - 1 ≤ truncate (s.product k) + s.intercept := by
  obtain ⟨slope, icept, hslope, -, hs, hround, hline⟩ := h.line
  obtain ⟨-, hlow, -⟩ := product_bounds hslope hs (hkey.trans hle) hk
  have hheadmem := List.mem_of_mem_head? hhead
  have hcorner := (hline head hheadmem).1
  rw [h.key head hhead, sub_self, mul_zero, zero_add] at hcorner
  obtain ⟨hband, hband'⟩ := hline p hp
  have hround' := (abs_le.mp hround).1
  have hdist : (p.1 : ℚ) - s.key ≤ k - s.key := by
    have : (p.1 : ℚ) ≤ k := by exact_mod_cast hle
    linarith
  have hmono : slope * (p.1 - s.key) ≤ slope * (k - s.key) := by gcongr
  have hnarrow' : (p.2 : ℚ) - head.2 + 2 * epsilon < 5 * 2 ^ 19 := by exact_mod_cast hnarrow
  have hsmall : slope * (p.1 - s.key) < 5 * 2 ^ 19 := by linarith
  have hprod : slope * (p.1 - s.key) - 1 / 2 < s.product k := by
    have hfactor : slope * (p.1 - s.key) * (1 - 1 / (5 * 2 ^ 20)) ≤
        slope * (k - s.key) * (1 - 1 / (5 * 2 ^ 20)) := by gcongr
    linarith
  have hlt : ((p.2 - epsilon - 2 : ℤ) : ℚ) < ((truncate (s.product k) + s.intercept : ℤ) : ℚ) := by
    have := lt_truncate (s.product k)
    push_cast
    linarith
  have hlt' : p.2 - epsilon - 2 < truncate (s.product k) + s.intercept := by exact_mod_cast hlt
  omega

theorem Fits.product_lt (h : Fits epsilon run s) (hepsilon : epsilon ≤ 16) (hkey : s.key ≤ k)
    (hk : k - s.key < 2 ^ 57) : s.product k < 2 ^ 63 := by
  obtain ⟨slope, icept, hslope, hle, hs, -⟩ := h.line
  obtain ⟨-, -, hup⟩ := product_bounds hslope hs hkey (by omega)
  have hepsilon' : (epsilon : ℚ) ≤ 16 := by exact_mod_cast hepsilon
  have hd : (0 : ℚ) ≤ k - s.key := by
    have : (s.key : ℚ) ≤ k := by exact_mod_cast hkey
    linarith
  have hd' : (k : ℚ) - s.key ≤ 2 ^ 57 := by
    have : (k : ℚ) - s.key < 2 ^ 57 := by exact_mod_cast hk
    exact this.le
  have hslope' : slope ≤ 33 := by linarith
  calc s.product k ≤ slope * (k - s.key) * (1 + 1 / (5 * 2 ^ 20)) := hup
    _ ≤ 33 * 2 ^ 57 * (1 + 1 / (5 * 2 ^ 20)) := by gcongr
    _ < 2 ^ 63 := by norm_num

end Predict

end LearnedIndexFramework.Pgm
