import Mathlib.Algebra.Order.Ring.Int
import Mathlib.Data.List.Basic
import Mathlib.Logic.Function.Basic

/-! Writing a list into a partially initialised array, from a start position on. -/

universe u

namespace LearnedIndexFramework.Lib

open Function

variable {α : Type u} (out : ℤ → Option α) (start : ℤ)

def overlay (xs : List α) : ℤ → Option α := fun p =>
  if start ≤ p ∧ p < start + xs.length then xs[(p - start).toNat]? else out p

@[simp] theorem overlay_nil : overlay out start [] = out := by
  funext p
  refine if_neg ?_
  simp only [List.length_nil, Nat.cast_zero]
  omega

theorem overlay_singleton (x : α) : overlay out start [x] = update out start (some x) := by
  funext p
  by_cases hp : p = start
  · subst hp
    simp [overlay]
  · rw [update_of_ne hp]
    refine if_neg ?_
    simp only [List.length_singleton, Nat.cast_one]
    omega

theorem overlay_append (xs ys : List α) :
    overlay out start (xs ++ ys) = overlay (overlay out (start + xs.length) ys) start xs := by
  funext p
  simp only [overlay, List.length_append, Nat.cast_add]
  by_cases hfirst : start ≤ p ∧ p < start + xs.length
  · rw [if_pos hfirst, if_pos (by omega), List.getElem?_append_left (by omega)]
  · rw [if_neg hfirst]
    by_cases hsecond : start + xs.length ≤ p ∧ p < start + xs.length + ys.length
    · rw [if_pos hsecond, if_pos (by omega), List.getElem?_append_right (by omega)]
      congr 1
      omega
    · rw [if_neg hsecond, if_neg (by omega)]

theorem overlay_append_left (xs ys : List α) :
    overlay out start (xs ++ ys) = overlay (overlay out start xs) (start + xs.length) ys := by
  funext p
  simp only [overlay, List.length_append, Nat.cast_add]
  by_cases hsecond : start + xs.length ≤ p ∧ p < start + xs.length + ys.length
  · rw [if_pos hsecond, if_pos (by omega), List.getElem?_append_right (by omega)]
    congr 1
    omega
  · rw [if_neg hsecond]
    by_cases hfirst : start ≤ p ∧ p < start + xs.length
    · rw [if_pos hfirst, if_pos (by omega), List.getElem?_append_left (by omega)]
    · rw [if_neg hfirst, if_neg (by omega)]

theorem overlay_apply {xs : List α} {i : ℕ} (hi : i < xs.length) :
    overlay out 0 xs i = xs[i]? := by
  simp only [overlay]
  rw [if_pos (by omega)]
  congr 1

end LearnedIndexFramework.Lib
