import Mathlib.Algebra.Order.Round
import Mathlib.Data.Int.Log
import Mathlib.Data.Rat.Floor
import Mathlib.Tactic.FieldSimp
import Mathlib.Tactic.Linarith
import Mathlib.Tactic.Ring

/-! Rounding to a binary significand of a given length, ties to even, without bounds on the
exponent. -/

namespace LearnedIndexFramework.Lib

def roundEven (q : ℚ) : ℤ :=
  if q - ⌊q⌋ < 1 / 2 then ⌊q⌋
  else if 1 / 2 < q - ⌊q⌋ then ⌊q⌋ + 1
  else if ⌊q⌋ % 2 = 0 then ⌊q⌋ else ⌊q⌋ + 1

def ulp (p : ℕ) (q : ℚ) : ℚ := 2 ^ (Int.log 2 |q| + 1 - p)

/-- The nearest number with a significand of `p` bits. -/
def roundTo (p : ℕ) (q : ℚ) : ℚ := roundEven (q / ulp p q) * ulp p q

def binary64 (q : ℚ) : ℚ := roundTo 53 q

/-- A `long double` of the x87 format. -/
def extended80 (q : ℚ) : ℚ := roundTo 64 q

example : roundTo 3 (11 / 32) = 3 / 8 := by decide +kernel

theorem abs_roundEven_sub_le (q : ℚ) : |(roundEven q : ℚ) - q| ≤ 1 / 2 := by
  have hlo := Int.floor_le q
  have hhi := Int.lt_floor_add_one q
  rw [roundEven, abs_le]
  split
  · constructor <;> linarith
  split
  · push_cast
    constructor <;> linarith
  split
  · constructor <;> linarith
  · push_cast
    constructor <;> linarith

theorem roundEven_nonneg {q : ℚ} (h : 0 ≤ q) : 0 ≤ roundEven q := by
  have hfloor : 0 ≤ ⌊q⌋ := Int.floor_nonneg.mpr h
  unfold roundEven
  split
  · exact hfloor
  split
  · omega
  split <;> omega

theorem roundEven_cases (q : ℚ) : roundEven q = ⌊q⌋ ∨ roundEven q = ⌊q⌋ + 1 := by
  rw [roundEven]
  split
  · exact .inl rfl
  split
  · exact .inr rfl
  split
  · exact .inl rfl
  · exact .inr rfl

theorem roundEven_intCast (n : ℤ) : roundEven n = n := by
  rw [roundEven, Int.floor_intCast, sub_self, if_pos one_half_pos]

theorem roundEven_mono {q q' : ℚ} (hle : q ≤ q') : roundEven q ≤ roundEven q' := by
  rcases (Int.floor_le_floor hle).lt_or_eq with hlt | heq
  · rcases roundEven_cases q with h | h <;> rcases roundEven_cases q' with h' | h' <;> omega
  · unfold roundEven
    rw [← heq]
    by_cases hdown : q' - ⌊q⌋ < 1 / 2
    · rw [if_pos hdown, if_pos (show q - ⌊q⌋ < 1 / 2 by linarith)]
    by_cases hup : 1 / 2 < q - ⌊q⌋
    · rw [if_neg (not_lt.mpr hup.le), if_pos hup, if_neg hdown,
        if_pos (show 1 / 2 < q' - ⌊q⌋ by linarith)]
    rw [if_neg hup, if_neg hdown]
    split_ifs <;> omega

theorem roundEven_neg (q : ℚ) : roundEven (-q) = -roundEven q := by
  by_cases hint : (⌊q⌋ : ℚ) = q
  · rw [← hint, ← Int.cast_neg, roundEven_intCast, roundEven_intCast]
  have hlt : (⌊q⌋ : ℚ) < q := lt_of_le_of_ne (Int.floor_le q) hint
  have hupper := Int.lt_floor_add_one q
  have hfloor : ⌊-q⌋ = -⌊q⌋ - 1 := by
    rw [Int.floor_eq_iff]
    push_cast
    constructor <;> linarith
  rw [roundEven, roundEven, hfloor]
  push_cast
  by_cases hdown : q - ⌊q⌋ < 1 / 2
  · rw [if_pos hdown, if_neg (by linarith), if_pos (by linarith)]
    ring
  by_cases hup : 1 / 2 < q - ⌊q⌋
  · rw [if_neg hdown, if_pos hup, if_pos (by linarith)]
    ring
  rw [if_neg hdown, if_neg hup, if_neg (by linarith), if_neg (by linarith)]
  split <;> split <;> omega

variable {p : ℕ} {q : ℚ}

theorem ulp_pos (p : ℕ) (q : ℚ) : 0 < ulp p q := zpow_pos two_pos _

theorem ulp_le (p : ℕ) (hq : q ≠ 0) : ulp p q * 2 ^ p ≤ 2 * |q| := by
  have hlog : (2 : ℚ) ^ Int.log 2 |q| ≤ |q| := by
    exact_mod_cast Int.zpow_log_le_self one_lt_two (abs_pos.mpr hq)
  have hulp : ulp p q * 2 ^ p = 2 * 2 ^ Int.log 2 |q| := by
    rw [ulp, ← zpow_natCast (2 : ℚ) p, ← zpow_add₀ two_ne_zero, sub_add_cancel,
      zpow_add_one₀ two_ne_zero, mul_comm]
  rw [hulp]
  exact mul_le_mul_of_nonneg_left hlog two_pos.le

@[simp] theorem roundTo_zero (p : ℕ) : roundTo p 0 = 0 := by
  have hzero : roundEven 0 = 0 := by decide +kernel
  rw [roundTo, zero_div, hzero, Int.cast_zero, zero_mul]

theorem abs_roundTo_sub_le (p : ℕ) (q : ℚ) : |roundTo p q - q| ≤ |q| / 2 ^ p := by
  by_cases hq : q = 0
  · simp [hq]
  have hpos := ulp_pos p q
  have hround := abs_roundEven_sub_le (q / ulp p q)
  have hle := ulp_le p hq
  have heq : roundTo p q - q = (roundEven (q / ulp p q) - q / ulp p q) * ulp p q := by
    rw [roundTo, sub_mul, div_mul_cancel₀ _ hpos.ne']
  rw [heq, abs_mul, abs_of_pos hpos, le_div_iff₀ (by positivity)]
  calc |(roundEven (q / ulp p q) : ℚ) - q / ulp p q| * ulp p q * 2 ^ p
      ≤ 1 / 2 * ulp p q * 2 ^ p := by gcongr
    _ = 1 / 2 * (ulp p q * 2 ^ p) := mul_assoc _ _ _
    _ ≤ 1 / 2 * (2 * |q|) := by gcongr
    _ = |q| := by ring

theorem roundTo_nonneg (p : ℕ) (h : 0 ≤ q) : 0 ≤ roundTo p q :=
  mul_nonneg (Int.cast_nonneg (roundEven_nonneg (div_nonneg h (ulp_pos p q).le))) (ulp_pos p q).le

theorem roundTo_le (p : ℕ) (h : 0 ≤ q) : roundTo p q ≤ q * (1 + 1 / 2 ^ p) := by
  have habs := (abs_le.mp (abs_roundTo_sub_le p q)).2
  rw [abs_of_nonneg h] at habs
  calc roundTo p q ≤ q + q / 2 ^ p := by linarith
    _ = q * (1 + 1 / 2 ^ p) := by ring

theorem le_roundTo (p : ℕ) (h : 0 ≤ q) : q * (1 - 1 / 2 ^ p) ≤ roundTo p q := by
  have habs := (abs_le.mp (abs_roundTo_sub_le p q)).1
  rw [abs_of_nonneg h] at habs
  calc q * (1 - 1 / 2 ^ p) = q - q / 2 ^ p := by ring
    _ ≤ roundTo p q := by linarith

theorem roundTo_pos (hp : 0 < p) (h : 0 < q) : 0 < roundTo p q := by
  refine lt_of_lt_of_le (mul_pos h ?_) (le_roundTo p h.le)
  have hone : (1 : ℚ) / 2 ^ p < 1 := by
    rw [div_lt_one (by positivity)]
    exact one_lt_pow₀ one_lt_two hp.ne'
  linarith

theorem roundTo_neg (p : ℕ) (q : ℚ) : roundTo p (-q) = -roundTo p q := by
  have hulp : ulp p (-q) = ulp p q := by rw [ulp, abs_neg, ulp]
  rw [roundTo, hulp, neg_div, roundEven_neg, Int.cast_neg, neg_mul, roundTo]

section Binade

variable {n : ℤ}

theorem ulp_mul_two_pow (p : ℕ) (h : 0 < q) : ulp p q * 2 ^ p = 2 ^ (Int.log 2 q + 1) := by
  rw [ulp, abs_of_pos h, ← zpow_natCast (2 : ℚ) p, ← zpow_add₀ two_ne_zero, sub_add_cancel]

theorem roundTo_le_binade (p : ℕ) (h : 0 < q) : roundTo p q ≤ 2 ^ (Int.log 2 q + 1) := by
  have hpos := ulp_pos p q
  have hlt : q < 2 ^ (Int.log 2 q + 1) := by exact_mod_cast Int.lt_zpow_succ_log_self one_lt_two q
  rw [← ulp_mul_two_pow p h] at hlt ⊢
  have hle : q / ulp p q ≤ (2 ^ p : ℤ) := by
    rw [div_le_iff₀ hpos, mul_comm]
    exact_mod_cast hlt.le
  have hround : roundEven (q / ulp p q) ≤ 2 ^ p := roundEven_intCast (2 ^ p) ▸ roundEven_mono hle
  rw [roundTo, mul_comm]
  exact mul_le_mul_of_nonneg_left (by exact_mod_cast hround) hpos.le

theorem binade_le_roundTo (hp : 0 < p) (h : 0 < q) : 2 ^ Int.log 2 q ≤ roundTo p q := by
  have hpos := ulp_pos p q
  have hge : (2 : ℚ) ^ Int.log 2 q ≤ q := by exact_mod_cast Int.zpow_log_le_self one_lt_two h
  have hbinade : (2 : ℚ) ^ Int.log 2 q = ulp p q * 2 ^ (p - 1) := by
    obtain ⟨p, rfl⟩ := Nat.exists_eq_add_of_lt hp
    have hulp := ulp_mul_two_pow (0 + p + 1) h
    rw [zpow_add_one₀ two_ne_zero, pow_succ, ← mul_assoc] at hulp
    rw [Nat.add_sub_cancel]
    exact (mul_right_cancel₀ two_ne_zero hulp).symm
  rw [hbinade] at hge ⊢
  have hle : ((2 ^ (p - 1) : ℤ) : ℚ) ≤ q / ulp p q := by
    rw [le_div_iff₀ hpos, mul_comm]
    exact_mod_cast hge
  have hround : 2 ^ (p - 1) ≤ roundEven (q / ulp p q) :=
    roundEven_intCast (2 ^ (p - 1)) ▸ roundEven_mono hle
  rw [roundTo, mul_comm]
  exact mul_le_mul_of_nonneg_right (by exact_mod_cast hround) hpos.le

theorem roundTo_mono_of_pos (hp : 0 < p) {q' : ℚ} (h : 0 < q) (hle : q ≤ q') :
    roundTo p q ≤ roundTo p q' := by
  have h' := h.trans_le hle
  rcases (Int.log_mono_right h hle : Int.log 2 q ≤ Int.log 2 q').lt_or_eq with hlt | heq
  · -- a power of two lies between
    calc roundTo p q ≤ 2 ^ (Int.log 2 q + 1) := roundTo_le_binade p h
      _ ≤ 2 ^ Int.log 2 q' := zpow_le_zpow_right₀ one_le_two hlt
      _ ≤ roundTo p q' := binade_le_roundTo hp h'
  · have hulp : ulp p q' = ulp p q := by rw [ulp, ulp, abs_of_pos h, abs_of_pos h', heq]
    have hpos := ulp_pos p q
    have hround : roundEven (q / ulp p q) ≤ roundEven (q' / ulp p q) :=
      roundEven_mono (div_le_div_of_nonneg_right hle hpos.le)
    rw [roundTo, roundTo, hulp]
    exact mul_le_mul_of_nonneg_right (by exact_mod_cast hround) hpos.le

end Binade

theorem roundTo_mono (hp : 0 < p) : Monotone (roundTo p) := by
  intro q q' hle
  rcases lt_trichotomy q 0 with hneg | rfl | hpos
  · rcases lt_or_ge q' 0 with hneg' | hnonneg
    · have hmono := roundTo_mono_of_pos hp (neg_pos.mpr hneg') (neg_le_neg hle)
      rw [roundTo_neg, roundTo_neg] at hmono
      exact neg_le_neg_iff.mp hmono
    · have hle0 := roundTo_nonneg p (neg_nonneg.mpr hneg.le)
      rw [roundTo_neg] at hle0
      exact (neg_nonneg.mp hle0).trans (roundTo_nonneg p hnonneg)
  · rw [roundTo_zero]
    exact roundTo_nonneg p hle
  · exact roundTo_mono_of_pos hp hpos hle

/-- A `double` and a `long double` arithmetic.  Neither underflows. -/
structure Precision where
  double : ℚ → ℚ
  longDouble : ℚ → ℚ
  double_mono : Monotone double
  longDouble_mono : Monotone longDouble
  double_zero : double 0 = 0
  longDouble_zero : longDouble 0 = 0
  double_pos : ∀ q, 0 < q → 0 < double q
  longDouble_pos : ∀ q, 0 < q → 0 < longDouble q

namespace Precision

def exact : Precision where
  double q := q
  longDouble q := q
  double_mono _ _ h := h
  longDouble_mono _ _ h := h
  double_zero := rfl
  longDouble_zero := rfl
  double_pos _ h := h
  longDouble_pos _ h := h

def x86 : Precision where
  double := binary64
  longDouble := extended80
  double_mono := roundTo_mono (by decide)
  longDouble_mono := roundTo_mono (by decide)
  double_zero := roundTo_zero 53
  longDouble_zero := roundTo_zero 64
  double_pos _ h := roundTo_pos (by decide) h
  longDouble_pos _ h := roundTo_pos (by decide) h

@[simp] theorem exact_double (q : ℚ) : exact.double q = q := rfl

@[simp] theorem exact_longDouble (q : ℚ) : exact.longDouble q = q := rfl

variable (fp : Precision)

theorem double_nonneg (h : 0 ≤ q) : 0 ≤ fp.double q := fp.double_zero ▸ fp.double_mono h

theorem longDouble_nonneg (h : 0 ≤ q) : 0 ≤ fp.longDouble q :=
  fp.longDouble_zero ▸ fp.longDouble_mono h

end Precision

end LearnedIndexFramework.Lib
