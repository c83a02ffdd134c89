import Mathlib.Algebra.Order.Ring.Nat
import Mathlib.Logic.Function.Basic
import Mathlib.Order.Lattice
import Mathlib.Tactic.Common

/-! Tournament trees of losers: the nodes of a complete binary tree are numbered level by level
from the root 1 on, each inner node keeps the loser of the match of its two subtrees, and place 0
the winner of all. -/

universe u

namespace LearnedIndexFramework.Lib

open Function

variable {α : Type u} [LinearOrder α]

def winner (leaf : ℕ → α) : ℕ → ℕ → α
  | 0, p => leaf p
  | h + 1, p => min (winner leaf h (2 * p)) (winner leaf h (2 * p + 1))

def loser (leaf : ℕ → α) (h p : ℕ) : α := max (winner leaf h (2 * p)) (winner leaf h (2 * p + 1))

/-- A tree of depth `d`. -/
structure IsLoserTree (d : ℕ) (leaf losers : ℕ → α) : Prop where
  top : losers 0 = winner leaf d 1
  node : ∀ h p, h < d → 2 ^ (d - h - 1) ≤ p → p < 2 ^ (d - h) → losers p = loser leaf h p

/-- Playing the matches on the way from a leaf to the root again. -/
def replay : ℕ → ℕ → α → (ℕ → α) → α × (ℕ → α)
  | 0, _, cand, losers => (cand, losers)
  | n + 1, pos, cand, losers =>
    if losers pos < cand then replay n (pos / 2) (losers pos) (update losers pos cand)
    else replay n (pos / 2) cand losers

variable {leaf leaf' losers : ℕ → α} {d h i p q n : ℕ} {c : α}

theorem div_two_pow_succ (q h : ℕ) : q / 2 ^ (h + 1) = q / 2 ^ h / 2 := by
  rw [pow_succ, Nat.div_div_eq_div_mul]

theorem winner_le (hq : q / 2 ^ h = p) : winner leaf h p ≤ leaf q := by
  induction h generalizing p with
  | zero =>
    rw [pow_zero, Nat.div_one] at hq
    subst hq
    exact le_rfl
  | succ h ih =>
    rw [div_two_pow_succ] at hq
    rw [winner]
    rcases Nat.even_or_odd' (q / 2 ^ h) with ⟨m, hm | hm⟩
    · exact (min_le_left _ _).trans (ih (by omega))
    · exact (min_le_right _ _).trans (ih (by omega))

theorem exists_winner_eq (leaf : ℕ → α) (h p : ℕ) :
    ∃ q, q / 2 ^ h = p ∧ winner leaf h p = leaf q := by
  induction h generalizing p with
  | zero => exact ⟨p, by rw [pow_zero, Nat.div_one], rfl⟩
  | succ h ih =>
    rw [winner]
    rcases min_choice (winner leaf h (2 * p)) (winner leaf h (2 * p + 1)) with hmin | hmin
    · obtain ⟨q, hq, heq⟩ := ih (2 * p)
      exact ⟨q, by rw [div_two_pow_succ]; omega, hmin.trans heq⟩
    · obtain ⟨q, hq, heq⟩ := ih (2 * p + 1)
      exact ⟨q, by rw [div_two_pow_succ]; omega, hmin.trans heq⟩

theorem winner_congr (heq : ∀ q, q / 2 ^ h = p → leaf' q = leaf q) :
    winner leaf' h p = winner leaf h p := by
  induction h generalizing p with
  | zero => exact heq p (by rw [pow_zero, Nat.div_one])
  | succ h ih =>
    rw [winner, winner, ih fun q hq => heq q (by rw [div_two_pow_succ]; omega),
      ih fun q hq => heq q (by rw [div_two_pow_succ]; omega)]

theorem winner_update_of_ne (hp : q / 2 ^ h ≠ p) :
    winner (update leaf q c) h p = winner leaf h p :=
  winner_congr fun q' hq' => update_of_ne (by rintro rfl; exact hp hq') _ _

theorem loser_update_of_ne (hp : q / 2 ^ (h + 1) ≠ p) :
    loser (update leaf q c) h p = loser leaf h p := by
  rw [div_two_pow_succ] at hp
  rw [loser, loser, winner_update_of_ne (by omega), winner_update_of_ne (by omega)]

theorem IsLoserTree.top_le (ht : IsLoserTree d leaf losers) (hq : q / 2 ^ d = 1) :
    losers 0 ≤ leaf q :=
  ht.top ▸ winner_le hq

theorem IsLoserTree.exists_top_eq (ht : IsLoserTree d leaf losers) :
    ∃ q, q / 2 ^ d = 1 ∧ losers 0 = leaf q := by
  obtain ⟨q, hq, heq⟩ := exists_winner_eq leaf d 1
  exact ⟨q, hq, ht.top.trans heq⟩

section Replay

theorem winner_of_champion (hchampion : ∀ q', q' / 2 ^ d = 1 → leaf q ≤ leaf q') (hd : h ≤ d)
    (hq : q / 2 ^ d = 1) : winner leaf h (q / 2 ^ h) = leaf q := by
  refine le_antisymm (winner_le rfl) ?_
  obtain ⟨q', hq', heq⟩ := exists_winner_eq leaf h (q / 2 ^ h)
  rw [heq]
  refine hchampion q' ?_
  obtain ⟨m, rfl⟩ := Nat.exists_eq_add_of_le hd
  rw [pow_add, ← Nat.div_div_eq_div_mul, hq', Nat.div_div_eq_div_mul, ← pow_add, hq]

theorem loser_of_champion (hchampion : ∀ q', q' / 2 ^ d = 1 → leaf q ≤ leaf q') (hd : h < d)
    (hq : q / 2 ^ d = 1) (c : α) :
    min (winner (update leaf q c) h (q / 2 ^ h)) (loser leaf h (q / 2 ^ (h + 1))) =
      winner (update leaf q c) (h + 1) (q / 2 ^ (h + 1)) ∧
    max (winner (update leaf q c) h (q / 2 ^ h)) (loser leaf h (q / 2 ^ (h + 1))) =
      loser (update leaf q c) h (q / 2 ^ (h + 1)) := by
  have hle : ∀ y, y / 2 ^ (d - h) = 1 → leaf q ≤ winner leaf h y := by
    intro y hy
    obtain ⟨q', rfl, heq⟩ := exists_winner_eq leaf h y
    rw [heq]
    refine hchampion q' ?_
    rw [Nat.div_div_eq_div_mul, ← pow_add, show h + (d - h) = d by omega] at hy
    exact hy
  have hwin := winner_of_champion hchampion hd.le hq
  have hroot : q / 2 ^ h / 2 / 2 ^ (d - h - 1) = 1 := by
    rw [← div_two_pow_succ, Nat.div_div_eq_div_mul, ← pow_add,
      show h + 1 + (d - h - 1) = d by omega, hq]
  have hside : ∀ y, y / 2 = q / 2 ^ h / 2 → leaf q ≤ winner leaf h y := by
    intro y hy
    refine hle y ?_
    rw [show d - h = 1 + (d - h - 1) by omega, pow_add, pow_one, ← Nat.div_div_eq_div_mul, hy]
    exact hroot
  rw [loser, loser, winner, div_two_pow_succ]
  have hother : ∀ y, y ≠ q / 2 ^ h → winner (update leaf q c) h y = winner leaf h y := fun y hy =>
    winner_update_of_ne hy.symm
  generalize q / 2 ^ h = x at hwin hside hother
  rcases Nat.even_or_odd' x with ⟨m, rfl | rfl⟩
  · have hm : 2 * m / 2 = m := by omega
    have hle' := hside (2 * m + 1) (by omega)
    rw [hm, hwin, max_eq_right hle', hother (2 * m + 1) (by omega)]
    exact ⟨rfl, rfl⟩
  · have hm : (2 * m + 1) / 2 = m := by omega
    have hle' := hside (2 * m) (by omega)
    rw [hm, hwin, max_eq_left hle', hother (2 * m) (by omega)]
    exact ⟨min_comm _ _, max_comm _ _⟩

theorem way_mem {m : ℕ} (hq : q / 2 ^ d = 1) (hm : m < d) :
    2 ^ (d - m - 1) ≤ q / 2 ^ (m + 1) ∧ q / 2 ^ (m + 1) < 2 ^ (d - m) := by
  have hroot : q / 2 ^ (m + 1) / 2 ^ (d - m - 1) = 1 := by
    rw [Nat.div_div_eq_div_mul, ← pow_add, show m + 1 + (d - m - 1) = d by omega, hq]
  have hsucc : 2 ^ (d - m) = 2 * 2 ^ (d - m - 1) := by
    rw [← pow_succ', show d - m - 1 + 1 = d - m by omega]
  have hpos : 0 < 2 ^ (d - m - 1) := Nat.two_pow_pos _
  rw [Nat.div_eq_iff hpos] at hroot
  omega

theorem level_unique {m m' : ℕ} (hm : 2 ^ (d - m - 1) ≤ p ∧ p < 2 ^ (d - m))
    (hm' : 2 ^ (d - m' - 1) ≤ p ∧ p < 2 ^ (d - m')) (hd : m < d) (hd' : m' < d) : m = m' := by
  rcases Nat.lt_trichotomy m m' with hlt | heq | hlt
  · have hle : 2 ^ (d - m') ≤ 2 ^ (d - m - 1) := Nat.pow_le_pow_right two_pos (by omega)
    omega
  · exact heq
  · have hle : 2 ^ (d - m) ≤ 2 ^ (d - m' - 1) := Nat.pow_le_pow_right two_pos (by omega)
    omega

theorem replay_from (hchampion : ∀ q', q' / 2 ^ d = 1 → leaf q ≤ leaf q') (hq : q / 2 ^ d = 1)
    (hn : h + n = d)
    (hway : ∀ m, h ≤ m → m < d → losers (q / 2 ^ (m + 1)) = loser leaf m (q / 2 ^ (m + 1)))
    (hrest : ∀ m p, m < d → 2 ^ (d - m - 1) ≤ p → p < 2 ^ (d - m) →
      (h ≤ m → q / 2 ^ (m + 1) ≠ p) → losers p = loser (update leaf q c) m p) :
    (replay n (q / 2 ^ (h + 1)) (winner (update leaf q c) h (q / 2 ^ h)) losers).1 =
        winner (update leaf q c) d 1 ∧
      ∀ m p, m < d → 2 ^ (d - m - 1) ≤ p → p < 2 ^ (d - m) →
        (replay n (q / 2 ^ (h + 1)) (winner (update leaf q c) h (q / 2 ^ h)) losers).2 p =
          loser (update leaf q c) m p := by
  induction n generalizing h losers with
  | zero =>
    obtain rfl : h = d := by omega
    rw [replay, hq]
    exact ⟨rfl, fun m p hm hlo hhi => hrest m p hm hlo hhi (by omega)⟩
  | succ n ih =>
    obtain ⟨hmin, hmax⟩ := loser_of_champion hchampion (h := h) (by omega) hq c
    have hpos := hway h le_rfl (by omega)
    have hmem := way_mem hq (show h < d by omega)
    have hne : ∀ m, h + 1 ≤ m → m < d → q / 2 ^ (m + 1) ≠ q / 2 ^ (h + 1) := by
      intro m hm hmd heq
      have := level_unique hmem (heq ▸ way_mem hq hmd) (by omega) hmd
      omega
    rw [replay, hpos, ← div_two_pow_succ]
    split
    case isTrue hlt =>
      rw [min_eq_right hlt.le] at hmin
      rw [max_eq_left hlt.le] at hmax
      rw [hmin]
      refine ih (by omega) (fun m hm hmd => ?_) fun m p hm hlo hhi hp => ?_
      · rw [update_of_ne (hne m hm hmd)]
        exact hway m (by omega) hmd
      · by_cases hp' : p = q / 2 ^ (h + 1)
        · subst hp'
          obtain rfl := level_unique hmem ⟨hlo, hhi⟩ (by omega) hm
          rw [update_self, hmax]
        · rw [update_of_ne hp']
          refine hrest m p hm hlo hhi fun hle => ?_
          rcases hle.eq_or_lt with rfl | hlt
          · exact Ne.symm hp'
          · exact hp hlt
    case isFalse hge =>
      rw [min_eq_left (not_lt.mp hge)] at hmin
      rw [max_eq_right (not_lt.mp hge)] at hmax
      rw [hmin]
      refine ih (by omega) (fun m hm hmd => hway m (by omega) hmd) fun m p hm hlo hhi hp => ?_
      by_cases hp' : p = q / 2 ^ (h + 1)
      · subst hp'
        obtain rfl := level_unique hmem ⟨hlo, hhi⟩ (by omega) hm
        rw [hpos, hmax]
      · refine hrest m p hm hlo hhi fun hle => ?_
        rcases hle.eq_or_lt with rfl | hlt
        · exact Ne.symm hp'
        · exact hp hlt

theorem IsLoserTree.replay (ht : IsLoserTree d leaf losers) (hq : q / 2 ^ d = 1)
    (htop : losers 0 = leaf q) (c : α) :
    IsLoserTree d (update leaf q c)
      (update (Lib.replay d (q / 2) c losers).2 0 (Lib.replay d (q / 2) c losers).1) := by
  have hchampion : ∀ q', q' / 2 ^ d = 1 → leaf q ≤ leaf q' := fun q' hq' =>
    htop ▸ ht.top_le hq'
  obtain ⟨hfirst, hsecond⟩ := @replay_from _ _ leaf losers d 0 q d c
    hchampion hq (Nat.zero_add d) (fun m _ hm => by
      obtain ⟨hlo, hhi⟩ := way_mem hq hm
      exact ht.node m _ hm hlo hhi)
    (fun m p hm hlo hhi hp => by
      rw [loser_update_of_ne (hp (Nat.zero_le m))]
      exact ht.node m p hm hlo hhi)
  rw [Nat.zero_add, pow_one, pow_zero, Nat.div_one, winner, update_self] at hfirst hsecond
  refine ⟨by rw [update_self, hfirst], fun h p hh hlo hhi => ?_⟩
  rw [update_of_ne (by have := Nat.two_pow_pos (d - h - 1); omega)]
  exact hsecond h p hh hlo hhi

end Replay

end LearnedIndexFramework.Lib
