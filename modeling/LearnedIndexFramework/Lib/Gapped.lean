import Mathlib.Algebra.Order.Ring.Nat
import Mathlib.Order.BoundedOrder.Basic
import Mathlib.Tactic.Common

/-! Sorted arrays with gaps.  A gap holds the key of the position behind it, so that a search runs
over filled positions and gaps alike. -/

universe u

namespace LearnedIndexFramework.Lib

variable {K : Type u} [PartialOrder K] {key key' : ℕ → K} {filled filled' : ℕ → Bool}

structure Gapped (key : ℕ → K) (filled : ℕ → Bool) : Prop where
  le_succ : ∀ i, key i ≤ key (i + 1)
  gap : ∀ i, filled i = false → key i = key (i + 1)

theorem Gapped.mono (h : Gapped key filled) {i j : ℕ} (hij : i ≤ j) : key i ≤ key j := by
  induction j, hij using Nat.le_induction with
  | base => exact le_rfl
  | succ j _ ih => exact ih.trans (h.le_succ j)

theorem Gapped.eq_of_gaps (h : Gapped key filled) {i j : ℕ} (hij : i ≤ j)
    (hgaps : ∀ t, i ≤ t → t < j → filled t = false) : key i = key j := by
  induction j, hij using Nat.le_induction with
  | base => rfl
  | succ j hij ih =>
    rw [ih fun t hit htj => hgaps t hit (by omega)]
    exact h.gap j (hgaps j hij (by omega))

theorem Gapped.filled_of_lt (h : Gapped key filled) {i : ℕ} (hlt : key i < key (i + 1)) :
    filled i = true := by
  refine Bool.not_eq_false _ ▸ fun hgap => ?_
  exact hlt.ne (h.gap i hgap)

/-! ### Insertion and removal

`b` is the first position whose key is not smaller than the new one. -/

section Update

variable {x : K} {b g p : ℕ}

theorem Gapped.insert (h : Gapped key filled) (hbelow : ∀ i, i < b → key i < x)
    (habove : ∀ i, b ≤ i → x ≤ key i)
    (hkey : ∀ i, key' i = if b ≤ i ∧ i ≤ p then x else key i)
    (hfilled : ∀ i, filled' i = if i = p then true else filled i) : Gapped key' filled' where
  le_succ i := by
    rw [hkey, hkey]
    split <;> split
    · exact le_rfl
    · exact habove _ (by omega)
    · exact (hbelow i (by omega)).le
    · exact h.le_succ i
  gap i hgap := by
    rw [hfilled] at hgap
    split at hgap
    · exact Bool.noConfusion hgap
    · have heq := h.gap i hgap
      rw [hkey, hkey]
      split <;> split
      · rfl
      · omega
      · exact absurd ((hbelow i (by omega)).trans_le (habove (i + 1) (by omega))) (heq ▸ lt_irrefl _)
      · exact heq

theorem Gapped.shiftRight (h : Gapped key filled) (hbelow : ∀ i, i < b → key i < x)
    (habove : ∀ i, b ≤ i → x ≤ key i) (hbg : b ≤ g)
    (hrun : ∀ i, b ≤ i → i < g → filled i = true)
    (hkey : ∀ i, key' i = if i < b then key i else if i = b then x
      else if i ≤ g then key (i - 1) else key i)
    (hfilled : ∀ i, filled' i = if i = g then true else filled i) : Gapped key' filled' where
  le_succ i := by
    rw [hkey, hkey]
    rcases lt_trichotomy i b with hlt | rfl | hgt
    case inl =>
      rw [if_pos hlt]
      split_ifs
      · exact h.le_succ i
      · exact (hbelow i hlt).le
      · omega
      · omega
    case inr.inl =>
      rw [if_neg (lt_irrefl i), if_pos rfl]
      split_ifs
      · omega
      · omega
      · exact habove _ (by omega)
      · exact habove _ (by omega)
    case inr.inr => split_ifs <;> first | omega | exact h.mono (by omega)
  gap i hgap := by
    rw [hfilled] at hgap
    split at hgap
    · exact Bool.noConfusion hgap
    · have heq := h.gap i hgap
      have hout : i < b ∨ g < i := by
        by_contra hin
        rw [hrun i (by omega) (by omega)] at hgap
        exact Bool.noConfusion hgap
      have hnext : i + 1 ≠ b ∨ g < i := by
        by_contra hin
        exact absurd ((hbelow i (by omega)).trans_le (habove (i + 1) (by omega))) (heq ▸ lt_irrefl _)
      rw [hkey, hkey]
      split_ifs <;> omega

theorem Gapped.shiftLeft (h : Gapped key filled) (hbelow : ∀ i, i < b → key i < x)
    (habove : ∀ i, b ≤ i → x ≤ key i) (hgb : g + 1 < b) (hgap : filled g = false)
    (hrun : ∀ i, g < i → i < b → filled i = true)
    (hkey : ∀ i, key' i = if i + 1 = b then x else if g ≤ i ∧ i < b then key (i + 1) else key i)
    (hfilled : ∀ i, filled' i = if i = g then true else filled i) : Gapped key' filled' where
  le_succ i := by
    have hshift := h.gap g hgap
    rw [hkey, hkey]
    split_ifs
    · omega
    · omega
    · exact habove _ (by omega)
    · exact (hbelow _ (by omega)).le
    · exact h.le_succ _
    · omega
    · exact (hbelow i (by omega)).le
    · exact h.mono (by omega)
    · exact h.le_succ i
  gap i hi := by
    rw [hfilled] at hi
    split at hi
    · exact Bool.noConfusion hi
    · have heq := h.gap i hi
      have hout : i < g ∨ b ≤ i := by
        by_contra hin
        rw [hrun i (by omega) (by omega)] at hi
        exact Bool.noConfusion hi
      rw [hkey, hkey]
      rcases hout with hlt | hge
      case inl =>
        rw [if_neg (by omega), if_neg (by omega), if_neg (by omega)]
        split_ifs
        · have hg : i + 1 = g := by omega
          rw [heq, hg, h.gap g hgap]
        · exact heq
      case inr =>
        rw [if_neg (by omega), if_neg (by omega), if_neg (by omega), if_neg (by omega)]
        exact heq

theorem Gapped.erase {lo : ℕ} (h : Gapped key filled)
    (hbelow : ∀ i, i < lo → key i < x) (hrun : ∀ i, lo ≤ i → i < b → key i = x)
    (hkey : ∀ i, key' i = if lo ≤ i ∧ i < b then key b else key i)
    (hfilled : ∀ i, filled' i = if lo ≤ i ∧ i < b then false else filled i) :
    Gapped key' filled' where
  le_succ i := by
    rw [hkey, hkey]
    split_ifs
    · exact le_rfl
    · exact h.mono (by omega)
    · exact h.mono (by omega)
    · exact h.le_succ i
  gap i hgap := by
    rw [hfilled] at hgap
    rw [hkey, hkey]
    split_ifs at hgap ⊢
    · rfl
    · have hb : i + 1 = b := by omega
      rw [hb]
    · have hfirst : i + 1 = lo := by omega
      have heq := h.gap i hgap
      rw [hrun (i + 1) (by omega) (by omega)] at heq
      exact absurd heq (hbelow i (by omega)).ne
    · exact h.gap i hgap

end Update

/-! ### Building from the left -/

structure GappedTo (key : ℕ → K) (filled : ℕ → Bool) (n : ℕ) : Prop where
  le_succ : ∀ i, i + 1 < n → key i ≤ key (i + 1)
  gap : ∀ i, i + 1 < n → filled i = false → key i = key (i + 1)
  last : 0 < n → filled (n - 1) = true

theorem gappedTo_zero : GappedTo key filled 0 where
  le_succ _ h := by omega
  gap _ h := by omega
  last h := by omega

theorem GappedTo.extend {n p : ℕ} {x : K} (h : GappedTo key filled n)
    (hx : 0 < n → key (n - 1) ≤ x)
    (hkey : ∀ i, i ≤ p → key' i = if n ≤ i then x else key i)
    (hfilled : ∀ i, i ≤ p → filled' i = if i = p then true else filled i) :
    GappedTo key' filled' (p + 1) where
  le_succ i hi := by
    rw [hkey i (by omega), hkey (i + 1) (by omega)]
    split_ifs
    · exact le_rfl
    · omega
    · have hlast : i = n - 1 := by omega
      exact hlast ▸ hx (by omega)
    · exact h.le_succ i (by omega)
  gap i hi hgap := by
    rw [hfilled i (by omega), if_neg (by omega)] at hgap
    rw [hkey i (by omega), hkey (i + 1) (by omega)]
    split_ifs
    · rfl
    · omega
    · have hlast : i = n - 1 := by omega
      rw [hlast, h.last (by omega)] at hgap
      exact Bool.noConfusion hgap
    · exact h.gap i (by omega) hgap
  last _ := by rw [Nat.add_sub_cancel, hfilled p le_rfl, if_pos rfl]

theorem GappedTo.gapped [OrderTop K] {n : ℕ} (h : GappedTo key filled n)
    (hrest : ∀ i, n ≤ i → key i = ⊤) : Gapped key filled where
  le_succ i := by
    rcases Nat.lt_or_ge (i + 1) n with hlt | hge
    · exact h.le_succ i hlt
    · rw [hrest (i + 1) hge]
      exact le_top
  gap i hgap := by
    rcases lt_trichotomy (i + 1) n with hlt | heq | hgt
    · exact h.gap i hlt hgap
    · have hlast : i = n - 1 := by omega
      rw [hlast, h.last (by omega)] at hgap
      exact Bool.noConfusion hgap
    · rw [hrest i (by omega), hrest (i + 1) (by omega)]

end LearnedIndexFramework.Lib
