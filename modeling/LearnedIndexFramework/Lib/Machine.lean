import Mathlib.Data.Rat.Floor
import Mathlib.Tactic.FieldSimp
import Mathlib.Tactic.Linarith
import Mathlib.Tactic.Ring

/-! Conversions between real values and machine integers. -/

namespace LearnedIndexFramework.Lib

/-- Conversion of a real value to a signed integer type: truncation towards zero. -/
def truncate (q : ℚ) : ℤ := if 0 ≤ q then ⌊q⌋ else ⌈q⌉

@[simp] theorem truncate_intCast (z : ℤ) : truncate z = z := by
  unfold truncate
  split
  · exact Int.floor_intCast z
  · exact Int.ceil_intCast z

theorem truncate_lt (q : ℚ) : truncate q < q + 1 := by
  unfold truncate
  split
  · exact (Int.floor_le q).trans_lt (lt_add_one q)
  · exact Int.ceil_lt_add_one q

theorem lt_truncate (q : ℚ) : q - 1 < truncate q := by
  unfold truncate
  split
  · exact Int.sub_one_lt_floor q
  · exact (sub_one_lt q).trans_le (Int.le_ceil q)

theorem le_truncate {z : ℤ} {q : ℚ} (h : (z : ℚ) ≤ q) : z ≤ truncate q := by
  have hlt : ((z - 1 : ℤ) : ℚ) < truncate q := by
    push_cast
    linarith [lt_truncate q]
  have hlt' : z - 1 < truncate q := by exact_mod_cast hlt
  omega

theorem toNat_ofInt_of_lt {z : ℤ} (h0 : 0 ≤ z) (h : z < 2 ^ 64) :
    ((UInt64.ofInt z).toNat : ℤ) = z := by
  have hmod : z % 2 ^ 64 = z := Int.emod_eq_of_lt h0 h
  rw [UInt64.ofInt, hmod, UInt64.toNat_ofNat']
  omega

def wrapInt (z : ℤ) : ℤ := (z + 2 ^ 31) % 2 ^ 32 - 2 ^ 31

theorem wrapInt_le {z : ℤ} (h : 0 ≤ z) : wrapInt z ≤ z := by
  unfold wrapInt
  omega

theorem wrapInt_of_lt {z : ℤ} (h0 : 0 ≤ z) (h : z < 2 ^ 31) : wrapInt z = z := by
  unfold wrapInt
  omega

def wrapInt64 (z : ℤ) : ℤ := (z + 2 ^ 63) % 2 ^ 64 - 2 ^ 63

theorem wrapInt64_of_lt {z : ℤ} (h0 : 0 ≤ z) (h : z < 2 ^ 63) : wrapInt64 z = z := by
  unfold wrapInt64
  omega

theorem tdiv_round (n : ℤ) {d : ℤ} (hd : 0 < d) :
    -d ≤ 2 * ((n + ((if n < 0 then -1 else 1) * d).tdiv 2).tdiv d * d - n) ∧
      2 * ((n + ((if n < 0 then -1 else 1) * d).tdiv 2).tdiv d * d - n) ≤ d := by
  split
  case isTrue hneg =>
    have hhalf : (-1 * d).tdiv 2 = -(d / 2) := by
      rw [Int.neg_mul, Int.one_mul, Int.neg_tdiv, Int.tdiv_eq_ediv_of_nonneg hd.le]
    have hquot : (n + -(d / 2)).tdiv d = -((-n + d / 2) / d) := by
      rw [show n + -(d / 2) = -(-n + d / 2) by ring, Int.neg_tdiv,
        Int.tdiv_eq_ediv_of_nonneg (by omega)]
    rw [hhalf, hquot]
    have hmod := Int.emod_add_mul_ediv (-n + d / 2) d
    have hge := Int.emod_nonneg (-n + d / 2) hd.ne'
    have hlt := Int.emod_lt_of_pos (-n + d / 2) hd
    rw [Int.mul_comm] at hmod
    rw [Int.neg_mul]
    omega
  case isFalse hpos =>
    have hhalf : (1 * d).tdiv 2 = d / 2 := by
      rw [Int.one_mul, Int.tdiv_eq_ediv_of_nonneg hd.le]
    rw [hhalf, Int.tdiv_eq_ediv_of_nonneg (by omega)]
    have hmod := Int.emod_add_mul_ediv (n + d / 2) d
    have hge := Int.emod_nonneg (n + d / 2) hd.ne'
    have hlt := Int.emod_lt_of_pos (n + d / 2) hd
    rw [Int.mul_comm] at hmod
    omega

theorem abs_tdiv_round_sub_le (n : ℤ) {d : ℤ} (hd : 0 < d) :
    |(((n + ((if n < 0 then -1 else 1) * d).tdiv 2).tdiv d : ℤ) : ℚ) - n / d| ≤ 1 / 2 := by
  obtain ⟨hlo, hhi⟩ := tdiv_round n hd
  generalize (n + ((if n < 0 then -1 else 1) * d).tdiv 2).tdiv d = q at hlo hhi ⊢
  have hd' : (0 : ℚ) < d := Int.cast_pos.mpr hd
  have hlo' : -(d : ℚ) ≤ 2 * (q * d - n) := by exact_mod_cast hlo
  have hhi' : 2 * (q * d - n) ≤ (d : ℚ) := by exact_mod_cast hhi
  have hsub : (q : ℚ) - n / d = (q * d - n) / d := by
    field_simp
  rw [hsub, abs_le, le_div_iff₀ hd', div_le_iff₀ hd']
  constructor <;> linarith

end LearnedIndexFramework.Lib
