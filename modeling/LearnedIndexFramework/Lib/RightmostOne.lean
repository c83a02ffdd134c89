import Mathlib.Data.Nat.Bitwise
import Mathlib.Data.Nat.Find
import Mathlib.Tactic.Common

/-! The lowest bit of a word: how it is found, taken off and counted up to by arithmetic. -/

namespace LearnedIndexFramework.Lib

variable {w : ℕ}

def extractRightmostOne (value : BitVec w) : BitVec w := value &&& -value

def removeRightmostOne (value : BitVec w) : BitVec w := value &&& (value - 1#w)

def countOnes (value : BitVec w) : ℕ := (List.range w).countP value.getLsbD

structure IsRightmostOne (value : BitVec w) (t : ℕ) : Prop where
  one : value.getLsbD t = true
  zero : ∀ i, i < t → value.getLsbD i = false

theorem exists_isRightmostOne {value : BitVec w} (h : value ≠ 0) :
    ∃ t, IsRightmostOne value t := by
  have hbit : ∃ t, value.getLsbD t = true := by
    by_contra hnone
    push Not at hnone
    refine h (BitVec.eq_of_getLsbD_eq fun i _ => ?_)
    simpa using hnone i
  refine ⟨Nat.find hbit, Nat.find_spec hbit, fun i hi => ?_⟩
  simpa using Nat.find_min hbit hi

section

variable {value : BitVec w} {t : ℕ} (h : IsRightmostOne value t)

include h

theorem IsRightmostOne.lt : t < w := BitVec.lt_of_getLsbD h.one

theorem IsRightmostOne.exists_odd : ∃ m, value.toNat = 2 ^ t * (2 * m + 1) := by
  have hdvd : 2 ^ t ∣ value.toNat := by
    refine Nat.dvd_of_mod_eq_zero (Nat.eq_of_testBit_eq fun i => ?_)
    rw [Nat.testBit_mod_two_pow, Nat.zero_testBit]
    by_cases hi : i < t
    · rw [BitVec.testBit_toNat, h.zero i hi, Bool.and_false]
    · simp [hi]
  obtain ⟨q, hq⟩ := hdvd
  have hodd : q % 2 = 1 := by
    have hone := h.one
    rw [← BitVec.testBit_toNat, hq, Nat.testBit_two_pow_mul] at hone
    simpa [Nat.testBit_zero] using hone
  exact ⟨q / 2, by rw [hq]; congr 1; omega⟩

theorem IsRightmostOne.getLsbD_sub_one {i : ℕ} (hi : i < w) :
    (value - 1#w).getLsbD i =
      if i < t then true else if i = t then false else value.getLsbD i := by
  obtain ⟨m, hm⟩ := h.exists_odd
  have hpos := Nat.two_pow_pos t
  have hsub : (value - 1#w).toNat = 2 ^ t * (2 * m) + (2 ^ t - 1) := by
    have hone : (1#w).toNat = 1 := BitVec.toNat_one (by omega)
    have hle : 1#w ≤ value := by
      rw [BitVec.le_def, hone, hm]
      exact Nat.mul_pos hpos (by omega)
    rw [BitVec.toNat_sub_of_le hle, hone, hm, Nat.mul_add, Nat.mul_one]
    omega
  rw [← BitVec.testBit_toNat, hsub, Nat.testBit_two_pow_mul_add _ (by omega),
    Nat.testBit_two_pow_sub_one]
  split
  case isTrue hlt => simp [hlt]
  case isFalse hge =>
    split
    case isTrue heq => simp [heq]
    case isFalse hne =>
      obtain ⟨j, rfl⟩ : ∃ j, i = t + (j + 1) := ⟨i - t - 1, by omega⟩
      have hhalf : (2 * m + 1) / 2 = 2 * m / 2 := by omega
      rw [← BitVec.testBit_toNat, hm, Nat.testBit_two_pow_mul, Nat.add_sub_cancel_left,
        Nat.testBit_succ, Nat.testBit_succ, hhalf]
      simp

theorem IsRightmostOne.getLsbD_remove (i : ℕ) :
    (removeRightmostOne value).getLsbD i = (value.getLsbD i && decide (i ≠ t)) := by
  rw [removeRightmostOne, BitVec.getLsbD_and]
  by_cases hi : i < w
  · rw [h.getLsbD_sub_one hi]
    split
    case isTrue hlt => rw [h.zero i hlt, Bool.false_and, Bool.false_and]
    case isFalse hge =>
      split
      case isTrue heq => simp [heq]
      case isFalse hne => simp [hne]
  · rw [BitVec.getLsbD_of_ge value i (by omega), Bool.false_and, Bool.false_and]

theorem IsRightmostOne.getLsbD_extract (i : ℕ) :
    (extractRightmostOne value).getLsbD i = decide (i = t) := by
  have hlt := h.lt
  have hneg : -value = ~~~(value - 1#w) := by
    rw [BitVec.not_eq_neg_add, BitVec.neg_sub, BitVec.add_sub_cancel]
  rw [extractRightmostOne, hneg, BitVec.getLsbD_and, BitVec.getLsbD_not]
  by_cases hi : i < w
  · rw [h.getLsbD_sub_one hi]
    split
    case isTrue hbelow => simp [hbelow.ne]
    case isFalse hge =>
      split
      case isTrue heq => simp [heq, h.one, hlt]
      case isFalse hne => simp [hne, hi]
  · rw [BitVec.getLsbD_of_ge value i (by omega), Bool.false_and]
    exact (decide_eq_false (by omega)).symm

theorem IsRightmostOne.extract : IsRightmostOne (extractRightmostOne value) t where
  one := by simp [h.getLsbD_extract]
  zero i hi := by simp [h.getLsbD_extract, hi.ne]

theorem IsRightmostOne.countOnes_extract_sub_one :
    countOnes (extractRightmostOne value - 1#w) = t := by
  have hlt := h.lt
  have hbits : ∀ i ∈ List.range w,
      (extractRightmostOne value - 1#w).getLsbD i = true ↔ decide (i < t) = true := by
    intro i hi
    rw [List.mem_range] at hi
    rw [h.extract.getLsbD_sub_one hi, h.getLsbD_extract]
    by_cases hit : i < t
    · simp [hit]
    · by_cases heq : i = t
      · simp [heq]
      · simp [hit, heq]
  have hsplit : List.range w = List.range t ++ (List.range (w - t)).map (t + ·) := by
    rw [← List.range_add, Nat.add_sub_cancel' hlt.le]
  rw [countOnes, List.countP_congr hbits, hsplit, List.countP_append,
    List.countP_eq_length.mpr (by simp), List.countP_eq_zero.mpr (by simp), List.length_range,
    Nat.add_zero]

end

theorem getLsbD_not_shiftLeft_sub_one {n : ℕ} (hn : n < w) (i : ℕ) :
    (~~~((1#w <<< n) - 1#w)).getLsbD i = (decide (i < w) && decide (n ≤ i)) := by
  have hone : IsRightmostOne (1#w <<< n) n := by
    exact ⟨by simp [hn], fun i hi => by simp [hi]⟩
  rw [BitVec.getLsbD_not]
  by_cases hi : i < w
  · rw [hone.getLsbD_sub_one hi]
    split
    case isTrue hlt => simp [hlt]
    case isFalse hge =>
      split
      case isTrue heq => simp [heq]
      case isFalse hne =>
        have hzero : i - n ≠ 0 := by omega
        simp [hi, hzero, Nat.le_of_not_lt hge]
  · simp [hi]

end LearnedIndexFramework.Lib
