import Mathlib.Algebra.Order.Field.Basic
import Mathlib.Tactic.FieldSimp
import Mathlib.Tactic.Linarith
import Mathlib.Tactic.Ring
import Mathlib.Data.Set.Basic

/-! Lines over an ordered field and families of lines cut out by points.  Everything
here is about the abstract family: which lines are its extreme members to the right of
the points, and when a new vertical band still meets it. -/

universe u

namespace LearnedIndexFramework.Lib

structure Line (K : Type u) where
  slope : K
  icept : K

namespace Line

section Field

variable {K : Type u} [Field K]

def eval (L : Line K) (x : K) : K := L.slope * x + L.icept

def through (x₀ y₀ x₁ y₁ : K) : Line K where
  slope := (y₁ - y₀) / (x₁ - x₀)
  icept := y₀ - (y₁ - y₀) / (x₁ - x₀) * x₀

def mix (t : K) (L M : Line K) : Line K where
  slope := (1 - t) * L.slope + t * M.slope
  icept := (1 - t) * L.icept + t * M.icept

theorem eval_sub_eval (L : Line K) (x x₀ : K) : L.eval x - L.eval x₀ = L.slope * (x - x₀) := by
  simp only [eval]
  ring

@[simp] theorem eval_mix (t : K) (L M : Line K) (x : K) :
    (mix t L M).eval x = (1 - t) * L.eval x + t * M.eval x := by
  simp only [mix, eval]
  ring

@[simp] theorem eval_through_left (x₀ y₀ x₁ y₁ : K) : (through x₀ y₀ x₁ y₁).eval x₀ = y₀ := by
  simp only [through, eval]
  ring

end Field

section Order

variable {K : Type u} [Field K] [LinearOrder K] [IsStrictOrderedRing K]

theorem eval_through_right {x₀ x₁ : K} (y₀ y₁ : K) (h : x₀ < x₁) :
    (through x₀ y₀ x₁ y₁).eval x₁ = y₁ := by
  have hne : x₁ - x₀ ≠ 0 := (sub_pos.mpr h).ne'
  simp only [through, eval]
  field_simp
  ring

theorem sub_eval_through {x₀ x₁ : K} (y₀ y₁ x y : K) (h : x₀ < x₁) :
    (x₁ - x₀) * (y - (through x₀ y₀ x₁ y₁).eval x) =
      (x₁ - x₀) * (y - y₀) - (y₁ - y₀) * (x - x₀) := by
  have hne : x₁ - x₀ ≠ 0 := (sub_pos.mpr h).ne'
  simp only [through, eval]
  field_simp
  ring

theorem lt_eval_through_iff {x₀ x₁ : K} (y₀ y₁ x y : K) (h : x₀ < x₁) :
    y < (through x₀ y₀ x₁ y₁).eval x ↔ (x₁ - x₀) * (y - y₀) < (y₁ - y₀) * (x - x₀) := by
  have hsub : (x₁ - x₀) * ((through x₀ y₀ x₁ y₁).eval x - y) =
      (y₁ - y₀) * (x - x₀) - (x₁ - x₀) * (y - y₀) := by
    rw [← neg_sub y, mul_neg, sub_eval_through y₀ y₁ x y h, neg_sub]
  rw [← sub_pos, ← mul_pos_iff_of_pos_left (sub_pos.mpr h), hsub, sub_pos]

theorem eval_through_lt_iff {x₀ x₁ : K} (y₀ y₁ x y : K) (h : x₀ < x₁) :
    (through x₀ y₀ x₁ y₁).eval x < y ↔ (y₁ - y₀) * (x - x₀) < (x₁ - x₀) * (y - y₀) := by
  rw [← sub_pos, ← mul_pos_iff_of_pos_left (sub_pos.mpr h), sub_eval_through y₀ y₁ x y h, sub_pos]

theorem eval_le_of_slope_le {L M : Line K} {x₀ x : K} (hs : L.slope ≤ M.slope)
    (h₀ : L.eval x₀ ≤ M.eval x₀) (hx : x₀ ≤ x) : L.eval x ≤ M.eval x := by
  have hrise := mul_le_mul_of_nonneg_right hs (sub_nonneg.mpr hx)
  rw [← eval_sub_eval, ← eval_sub_eval] at hrise
  linarith

theorem eval_le_of_le_slope {L M : Line K} {x₀ x : K} (hs : M.slope ≤ L.slope)
    (h₀ : L.eval x₀ ≤ M.eval x₀) (hx : x ≤ x₀) : L.eval x ≤ M.eval x := by
  have hfall := mul_le_mul_of_nonneg_right hs (sub_nonneg.mpr hx)
  rw [← eval_sub_eval, ← eval_sub_eval] at hfall
  linarith

theorem slope_le_of_cross {L M : Line K} {x₀ x₁ : K} (h : x₀ < x₁)
    (h₀ : L.eval x₀ ≤ M.eval x₀) (h₁ : M.eval x₁ ≤ L.eval x₁) : M.slope ≤ L.slope := by
  have hrise : M.slope * (x₁ - x₀) ≤ L.slope * (x₁ - x₀) := by
    rw [← eval_sub_eval, ← eval_sub_eval]
    exact sub_le_sub h₁ h₀
  exact le_of_mul_le_mul_right hrise (sub_pos.mpr h)

theorem le_of_cross_right {L M : Line K} {x₀ x₁ x : K} (h : x₀ < x₁)
    (h₀ : L.eval x₀ ≤ M.eval x₀) (h₁ : M.eval x₁ ≤ L.eval x₁) (hx : x₁ ≤ x) :
    M.eval x ≤ L.eval x :=
  eval_le_of_slope_le (slope_le_of_cross h h₀ h₁) h₁ hx

theorem le_of_cross_left {L M : Line K} {x₀ x₁ x : K} (h : x₀ < x₁)
    (h₀ : L.eval x₀ ≤ M.eval x₀) (h₁ : M.eval x₁ ≤ L.eval x₁) (hx : x ≤ x₀) :
    L.eval x ≤ M.eval x :=
  eval_le_of_le_slope (slope_le_of_cross h h₀ h₁) h₀ hx

theorem le_of_meet {L M : Line K} {x₀ x₁ x : K} (h : x₀ < x₁) (h₀ : L.eval x₀ ≤ M.eval x₀)
    (h₁ : L.eval x₁ = M.eval x₁) (hx : x ≤ x₁) : L.eval x ≤ M.eval x :=
  eval_le_of_le_slope (slope_le_of_cross h h₀ h₁.ge) h₁.le hx

theorem le_of_le_ends {L M : Line K} {x₀ x₁ x : K} (hx₀ : x₀ ≤ x) (hx₁ : x ≤ x₁)
    (h₀ : L.eval x₀ ≤ M.eval x₀) (h₁ : L.eval x₁ ≤ M.eval x₁) : L.eval x ≤ M.eval x := by
  rcases le_total L.slope M.slope with hs | hs
  · exact eval_le_of_slope_le hs h₀ hx₀
  · exact eval_le_of_le_slope hs h₁ hx₁

theorem slope_le_of_eval_le {L M : Line K} {x₀ : K} (h : ∀ x, x₀ ≤ x → L.eval x ≤ M.eval x) :
    L.slope ≤ M.slope := by
  by_contra hs
  have hd : 0 < L.slope - M.slope := by linarith
  have hx := h (max x₀ ((M.icept - L.icept) / (L.slope - M.slope) + 1)) (le_max_left _ _)
  have hlt : (M.icept - L.icept) / (L.slope - M.slope) <
      max x₀ ((M.icept - L.icept) / (L.slope - M.slope) + 1) :=
    (lt_add_one _).trans_le (le_max_right _ _)
  rw [div_lt_iff₀ hd] at hlt
  simp only [eval] at hx
  linarith

end Order

end Line

/-- A set of lines closed under mixing, with its lowest member `lo` and its highest
member `hi` at every abscissa from `x₀` on. -/
structure Extremes {K : Type u} [Field K] [LinearOrder K] (F : Set (Line K)) (x₀ : K)
    (lo hi : Line K) : Prop where
  mix : ∀ L ∈ F, ∀ M ∈ F, ∀ t, 0 ≤ t → t ≤ 1 → Line.mix t L M ∈ F
  lo_mem : lo ∈ F
  hi_mem : hi ∈ F
  lo_le : ∀ L ∈ F, ∀ x, x₀ ≤ x → lo.eval x ≤ L.eval x
  le_hi : ∀ L ∈ F, ∀ x, x₀ ≤ x → L.eval x ≤ hi.eval x

namespace Extremes

variable {K : Type u} [Field K] [LinearOrder K] [IsStrictOrderedRing K]
variable {F : Set (Line K)} {x₀ x y : K} {lo hi : Line K}

theorem exists_eval_eq (h : Extremes F x₀ lo hi) (hlo : lo.eval x ≤ y) (hhi : y ≤ hi.eval x) :
    ∃ L ∈ F, L.eval x = y := by
  rcases hlo.eq_or_lt with heq | hlt
  · exact ⟨lo, h.lo_mem, heq⟩
  · have hd : 0 < hi.eval x - lo.eval x := by linarith
    refine ⟨Line.mix ((y - lo.eval x) / (hi.eval x - lo.eval x)) lo hi,
      h.mix _ h.lo_mem _ h.hi_mem _ (div_nonneg (by linarith) hd.le)
        ((div_le_one hd).mpr (by linarith)), ?_⟩
    rw [Line.eval_mix]
    have hne := hd.ne'
    field_simp
    ring

theorem exists_band_iff (h : Extremes F x₀ lo hi) (hx : x₀ ≤ x) {l u : K} (hlu : l ≤ u) :
    (∃ L ∈ F, l ≤ L.eval x ∧ L.eval x ≤ u) ↔ lo.eval x ≤ u ∧ l ≤ hi.eval x := by
  constructor
  · rintro ⟨L, hL, hl, hu⟩
    exact ⟨(h.lo_le L hL x hx).trans hu, hl.trans (h.le_hi L hL x hx)⟩
  · rintro ⟨hu, hl⟩
    rcases le_total l (lo.eval x) with hc | hc
    · exact ⟨lo, h.lo_mem, hc, hu⟩
    · obtain ⟨L, hL, rfl⟩ := h.exists_eval_eq hc hl
      exact ⟨L, hL, le_rfl, hlu⟩

theorem exists_slope_iff (h : Extremes F x₀ lo hi) {a : K} :
    (∃ L ∈ F, L.slope = a) ↔ lo.slope ≤ a ∧ a ≤ hi.slope := by
  constructor
  · rintro ⟨L, hL, rfl⟩
    exact ⟨Line.slope_le_of_eval_le (h.lo_le L hL), Line.slope_le_of_eval_le (h.le_hi L hL)⟩
  · rintro ⟨hlo, hhi⟩
    rcases hlo.eq_or_lt with heq | hlt
    · exact ⟨lo, h.lo_mem, heq⟩
    · have hd : 0 < hi.slope - lo.slope := by linarith
      refine ⟨Line.mix ((a - lo.slope) / (hi.slope - lo.slope)) lo hi,
        h.mix _ h.lo_mem _ h.hi_mem _ (div_nonneg (by linarith) hd.le)
          ((div_le_one hd).mpr (by linarith)), ?_⟩
      have hne := hd.ne'
      simp only [Line.mix]
      field_simp
      ring

end Extremes

end LearnedIndexFramework.Lib
