import Mathlib.Algebra.Order.Ring.Nat
import Mathlib.Tactic.Common

/-! Exponential search for the bound between two parts of an array, from a guess on. -/

namespace LearnedIndexFramework.Lib

structure IsBound (p : ℕ → Bool) (n b : ℕ) : Prop where
  le : b ≤ n
  below : ∀ i, i < b → p i = false
  above : ∀ i, b ≤ i → i < n → p i = true

section Search

variable (read : ℕ → Option Bool)

def binarySearch : ℕ → ℕ → ℕ → Option ℕ
  | 0, l, r => if l < r then none else some l
  | fuel + 1, l, r =>
    if l < r then do
      let mid := l + (r - l) / 2
      if ← read mid then binarySearch fuel l mid else binarySearch fuel (mid + 1) r
    else some l

def widen (more : ℕ → Option Bool) (size : ℕ) : ℕ → ℕ → Option ℕ
  | 0, bound => if bound < size then none else some bound
  | fuel + 1, bound =>
    if bound < size then do
      if ← more bound then widen more size fuel (bound * 2) else some bound
    else some bound

def exponentialSearch (capacity m : ℕ) : Option ℕ := do
  if ← read m then
    let size := m
    let bound ← widen (fun d => read (m - d)) size size 1
    let l := m - min bound size
    let r := m - bound / 2
    binarySearch read (r - l) l r
  else
    let size := capacity - m
    let bound ← widen (fun d => (read (m + d)).map not) size size 1
    let l := m + bound / 2
    let r := m + min bound size
    binarySearch read (r - l) l r

end Search

variable {read : ℕ → Option Bool} {p : ℕ → Bool} {n : ℕ}

theorem binarySearch_eq (hread : ∀ i, i < n → read i = some (p i))
    (hmono : ∀ i j, i ≤ j → j < n → p i = true → p j = true) {fuel l r : ℕ} (hlr : l ≤ r)
    (hr : r ≤ n) (hfuel : r - l ≤ fuel) (hbelow : ∀ i, i < l → p i = false)
    (habove : ∀ i, r ≤ i → i < n → p i = true) :
    ∃ b, binarySearch read fuel l r = some b ∧ IsBound p n b := by
  induction fuel generalizing l r with
  | zero =>
    have heq : l = r := by omega
    subst heq
    exact ⟨l, by simp [binarySearch], hr, hbelow, habove⟩
  | succ fuel ih =>
    rw [binarySearch]
    split
    case isFalse hge =>
      have heq : l = r := by omega
      subst heq
      exact ⟨l, rfl, hr, hbelow, habove⟩
    case isTrue hlt =>
      have hmid : l + (r - l) / 2 < r := by omega
      simp only [hread _ (hmid.trans_le hr), Option.bind_eq_bind, Option.bind_some]
      cases hp : p (l + (r - l) / 2) with
      | true =>
        refine ih (by omega) (by omega) (by omega) hbelow ?_
        intro i hi hin
        exact hmono _ i hi hin hp
      | false =>
        refine ih (by omega) hr (by omega) ?_ habove
        intro i hi
        refine Bool.eq_false_iff.mpr fun htrue => ?_
        have hnext := hmono i _ (by omega) (hmid.trans_le hr) htrue
        rw [hp] at hnext
        exact Bool.false_ne_true hnext

theorem widen_eq (more : ℕ → Option Bool) (q : ℕ → Bool) (size : ℕ)
    (hmore : ∀ d, d < size → more d = some (q d)) {fuel bound : ℕ} (hpos : 0 < bound)
    (hfuel : size ≤ fuel + bound) (hlast : bound = 1 ∨ bound / 2 < size ∧ q (bound / 2) = true) :
    ∃ bound', widen more size fuel bound = some bound' ∧ 0 < bound' ∧
      (bound' = 1 ∨ bound' / 2 < size ∧ q (bound' / 2) = true) ∧
        (bound' < size → q bound' = false) := by
  induction fuel generalizing bound with
  | zero =>
    refine ⟨bound, ?_, hpos, hlast, by omega⟩
    rw [widen, if_neg (by omega)]
  | succ fuel ih =>
    rw [widen]
    split
    case isFalse hge => exact ⟨bound, rfl, hpos, hlast, by omega⟩
    case isTrue hlt =>
      simp only [hmore bound hlt, Option.bind_eq_bind, Option.bind_some]
      cases hq : q bound with
      | true =>
        refine ih (by omega) (by omega) (.inr ?_)
        rw [Nat.mul_div_cancel _ two_pos]
        exact ⟨hlt, hq⟩
      | false => exact ⟨bound, rfl, hpos, hlast, fun _ => hq⟩

theorem exponentialSearch_eq (hread : ∀ i, i < n → read i = some (p i))
    (hmono : ∀ i j, i ≤ j → j < n → p i = true → p j = true) {m : ℕ} (hm : m < n) :
    ∃ b, exponentialSearch read n m = some b ∧ IsBound p n b := by
  have hanti : ∀ i j, i ≤ j → j < n → p j = false → p i = false := by
    intro i j hij hj hfalse
    refine Bool.eq_false_iff.mpr fun htrue => ?_
    rw [hmono i j hij hj htrue] at hfalse
    exact Bool.noConfusion hfalse
  simp only [exponentialSearch, hread m hm, Option.bind_eq_bind, Option.bind_some]
  cases hp : p m with
  | true =>
    obtain ⟨bound, hwiden, hpos, hlast, hstop⟩ := widen_eq (fun d => read (m - d))
      (fun d => p (m - d)) m (fun d _ => hread (m - d) (by omega)) one_pos (Nat.le_add_right m 1) (.inl rfl)
    simp only [↓reduceIte, hwiden, Option.bind_some]
    refine binarySearch_eq hread hmono (by omega) (by omega) le_rfl ?_ ?_
    · intro i hi
      exact hanti i (m - bound) (by omega) (by omega) (hstop (by omega))
    · intro i hi hin
      rcases hlast with rfl | ⟨_, hq⟩
      · exact hmono m i (by omega) hin hp
      · exact hmono _ i hi hin hq
  | false =>
    obtain ⟨bound, hwiden, hpos, hlast, hstop⟩ := widen_eq
      (fun d => (read (m + d)).map not) (fun d => !p (m + d)) (n - m)
      (fun d hd => by rw [hread (m + d) (by omega)]; rfl) one_pos (Nat.le_add_right _ 1) (.inl rfl)
    simp only [Bool.false_eq_true, ↓reduceIte, hwiden, Option.bind_some]
    refine binarySearch_eq hread hmono (by omega) (by omega) le_rfl ?_ ?_
    · intro i hi
      rcases hlast with rfl | ⟨_, hq⟩
      · exact hanti i m (by omega) hm hp
      · exact hanti i (m + bound / 2) (by omega) (by omega) (Bool.not_eq_true' _ ▸ hq)
    · intro i hi hin
      exact hmono (m + bound) i (by omega) hin (Bool.not_eq_false' _ ▸ hstop (by omega))

end LearnedIndexFramework.Lib
