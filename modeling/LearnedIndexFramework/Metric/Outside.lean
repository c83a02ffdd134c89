import Mathlib.Data.List.MinMax
import LearnedIndexFramework.Metric.Protocol

/-! The search of `dataGenerator` for a key outside the global segment.  It counts the key up until
`check_point` turns it down, which takes a segment that no horizontal line fits. -/

namespace LearnedIndexFramework.Metric.Generator

open Lib

/-- `while (global_pla.check_point(cur_key, cur_rank)) ++cur_key;` with a bound on its rounds. -/
def searchOutside (lim : Limits) : ℕ → Hull → ℤ → ℤ → Option (ℤ × Hull)
  | 0, _, _, _ => none
  | n + 1, globalPla, curKey, curRank =>
    match checkPoint lim globalPla curKey curRank with
    | (true, globalPla) => searchOutside lim n globalPla (curKey + 1) curRank
    | (false, globalPla) => some (curKey, globalPla)

section Loop

variable {lim : Limits} {h : Hull} {key rank : ℤ}

theorem searchOutside_of_fits (hyes : (checkPoint lim h key rank).1 = true) (n : ℕ) :
    searchOutside lim (n + 1) h key rank = searchOutside lim n h (key + 1) rank := by
  have heq : checkPoint lim h key rank = (true, h) := Prod.ext hyes (checkPoint_keeps hyes)
  rw [searchOutside, heq]

theorem searchOutside_of_not_fits (hno : (checkPoint lim h key rank).1 = false) (n : ℕ) :
    searchOutside lim (n + 1) h key rank = some (key, (checkPoint lim h key rank).2) := by
  have heq : checkPoint lim h key rank = (false, (checkPoint lim h key rank).2) :=
    Prod.ext hno rfl
  rw [searchOutside, heq]

theorem searchOutside_eq_none (hall : ∀ k, key ≤ k → (checkPoint lim h k rank).1 = true) (n : ℕ) :
    searchOutside lim n h key rank = none := by
  induction n generalizing key with
  | zero => rfl
  | succ n ih =>
    rw [searchOutside_of_fits (hall key le_rfl)]
    exact ih fun k hk => hall k (by omega)

theorem exists_searchOutside {k : ℤ} (hk : key ≤ k) (hno : (checkPoint lim h k rank).1 = false) :
    ∃ n r, searchOutside lim n h key rank = some r := by
  obtain ⟨d, rfl⟩ := Int.le.dest hk
  clear hk
  induction d generalizing key with
  | zero => exact ⟨1, _, searchOutside_of_not_fits (by simpa using hno) 0⟩
  | succ d ih =>
    cases hkey : (checkPoint lim h key rank).1 with
    | true =>
      have hshift : key + 1 + (d : ℤ) = key + (d + 1 : ℕ) := by
        push_cast
        ring
      obtain ⟨n, r, hr⟩ := ih (hshift ▸ hno)
      exact ⟨n + 1, r, (searchOutside_of_fits hkey n).trans hr⟩
    | false => exact ⟨1, _, searchOutside_of_not_fits hkey 0⟩

end Loop

section Lines

variable {i : ℤ} {e : ℕ} {keys : List ℤ} {x : ℤ}

theorem fitsBands_int64_plain {pts : List (ℤ × ℤ)}
    (hpts : ∀ p ∈ pts, -2 ^ 63 ≤ p.2 - e ∧ p.2 + e < 2 ^ 63) :
    FitsBands .int64 e pts ↔ FitsRanks e pts := by
  have hband : ∀ p ∈ pts, ((max Limits.int64.lowest (p.2 - e) : ℤ) : ℚ) = p.2 - e ∧
      ((min Limits.int64.max (p.2 + e) : ℤ) : ℚ) = p.2 + e := by
    intro p hp
    obtain ⟨hlo, hhi⟩ := hpts p hp
    rw [max_eq_right (show Limits.int64.lowest ≤ p.2 - e by simpa [Limits.int64] using hlo),
      min_eq_right (show p.2 + e ≤ Limits.int64.max by simp only [Limits.int64]; omega)]
    push_cast
    exact ⟨rfl, rfl⟩
  refine exists_congr fun a => exists_congr fun b => forall₂_congr fun p hp => ?_
  rw [(hband p hp).1, (hband p hp).2]

theorem exists_mem_ranked_last (i : ℤ) (hne : keys ≠ []) :
    ∃ p ∈ ranked i keys, p.2 + 1 = i + keys.length := by
  induction keys generalizing i with
  | nil => exact absurd rfl hne
  | cons key keys ih =>
    cases keys with
    | nil => exact ⟨(key, i), by simp [ranked], by simp⟩
    | cons next keys =>
      obtain ⟨p, hp, hrank⟩ := ih (i + 1) (by simp)
      refine ⟨p, List.mem_cons_of_mem _ hp, ?_⟩
      rw [hrank, List.length_cons (a := key)]
      push_cast
      ring

theorem fitsRanks_of_short (hne : keys ≠ []) (hsorted : keys.Pairwise (· < ·))
    (hx : ∀ k ∈ keys, k < x) (hshort : keys.length ≤ 2 * e + 1) :
    FitsRanks e (ranked i keys ++ [(x, i + keys.length)]) := by
  obtain ⟨first, rest, rfl⟩ := List.exists_cons_of_ne_nil hne
  obtain ⟨hfirst, -⟩ := List.pairwise_cons.mp hsorted
  have hgap : (0 : ℚ) < x - first := by
    have : (first : ℚ) < x := by exact_mod_cast hx first (by simp)
    linarith
  have hlen : ((first :: rest).length : ℚ) ≤ 2 * e + 1 := by exact_mod_cast hshort
  have hvalue : ∀ k : ℚ, 1 / ((x : ℚ) - first) * k + (i + e - 1 / ((x : ℚ) - first) * first) =
      i + e + (k - first) / (x - first) := by
    intro k
    field_simp
    ring
  refine ⟨1 / ((x : ℚ) - first), i + e - 1 / ((x : ℚ) - first) * first, fun p hp => ?_⟩
  rw [hvalue]
  rcases List.mem_append.mp hp with hp | hp
  · rcases List.mem_cons.mp hp with rfl | hp
    · simp only [sub_self, zero_div, add_zero]
      exact ⟨by linarith [Nat.cast_nonneg (α := ℚ) e], le_rfl⟩
    · obtain ⟨hkey, hlo, hhi⟩ := mem_ranked hp
      have hkey₀ : (first : ℚ) < p.1 := by exact_mod_cast hfirst p.1 hkey
      have hkey₁ : (p.1 : ℚ) < x := by exact_mod_cast hx p.1 (by simp [hkey])
      have hrise₀ : 0 ≤ ((p.1 : ℚ) - first) / (x - first) :=
        div_nonneg (by linarith) hgap.le
      have hrise₁ : ((p.1 : ℚ) - first) / (x - first) ≤ 1 := by
        rw [div_le_one hgap]
        linarith
      have hlo' : (i : ℚ) + 1 ≤ p.2 := by exact_mod_cast hlo
      have hhi' : (p.2 : ℚ) < i + (first :: rest).length := by
        rw [List.length_cons]
        push_cast
        have : (p.2 : ℚ) < i + 1 + rest.length := by exact_mod_cast hhi
        linarith
      have hhi'' : (p.2 : ℚ) ≤ i + 2 * e := by
        have hlt : (p.2 : ℚ) < i + 2 * e + 1 := by linarith
        have : p.2 < i + 2 * e + 1 := by exact_mod_cast hlt
        exact_mod_cast (show p.2 ≤ i + 2 * e by omega)
      constructor <;> linarith
  · obtain rfl := List.mem_singleton.mp hp
    have hone : ((x : ℚ) - first) / (x - first) = 1 := div_self hgap.ne'
    have hpos : (1 : ℚ) ≤ ((first :: rest).length : ℚ) := by
      exact_mod_cast Nat.succ_le_of_lt (List.length_pos_of_ne_nil hne)
    simp only [hone]
    push_cast at hlen hpos ⊢
    constructor <;> linarith

theorem exists_not_fitsRanks (hne : keys ≠ []) (hsorted : keys.Pairwise (· < ·)) (start : ℤ)
    (hlong : 2 * e + 2 ≤ keys.length) :
    ∃ x, start ≤ x ∧ ¬ FitsRanks e (ranked i keys ++ [(x, i + keys.length)]) := by
  obtain ⟨first, rest, rfl⟩ := List.exists_cons_of_ne_nil hne
  obtain ⟨hfirst, -⟩ := List.pairwise_cons.mp hsorted
  have hrest : rest ≠ [] := by
    rintro rfl
    simp at hlong
  obtain ⟨p, hp, hrank⟩ := exists_mem_ranked_last (i + 1) hrest
  have hgap : first < p.1 := hfirst p.1 (mem_ranked hp).1
  refine ⟨max start (p.1 + (2 * e + 2) * (p.1 - first)), le_max_left _ _, ?_⟩
  rintro ⟨a, b, hab⟩
  have hbottom := (hab (first, i) (by simp [ranked])).2
  have htop := (hab p (List.mem_append_left _ (List.mem_cons_of_mem _ hp))).1
  have hnext := (hab (_, _) (List.mem_append_right _ (List.mem_singleton_self _))).2
  have hfar := le_max_right start (p.1 + (2 * e + 2) * (p.1 - first))
  generalize max start (p.1 + (2 * e + 2) * (p.1 - first)) = x at hfar hnext
  have hgap' : (0 : ℚ) < p.1 - first := by
    have : (first : ℚ) < p.1 := by exact_mod_cast hgap
    linarith
  have hfar' : (2 * e + 2) * ((p.1 : ℚ) - first) ≤ x - p.1 := by
    have : ((p.1 + (2 * e + 2) * (p.1 - first) : ℤ) : ℚ) ≤ x := by exact_mod_cast hfar
    push_cast at this
    linarith
  have hrank' : (p.2 : ℚ) + 1 = i + 1 + rest.length := by exact_mod_cast hrank
  have hlong' : (2 : ℚ) * e + 2 ≤ rest.length + 1 := by exact_mod_cast hlong
  rw [List.length_cons] at hnext
  push_cast at hnext
  -- from the first key to the last the line rises by one at least
  have hrise : 1 ≤ a * (p.1 - first) := by linarith
  have hslope : 0 < a := (mul_pos_iff_of_pos_right hgap').mp (by linarith)
  have hbeyond : 2 * (e : ℚ) + 2 ≤ a * (x - p.1) :=
    calc 2 * (e : ℚ) + 2 ≤ (2 * e + 2) * (a * (p.1 - first)) :=
          le_mul_of_one_le_right (by positivity) hrise
      _ = a * ((2 * e + 2) * (p.1 - first)) := by ring
      _ ≤ a * (x - p.1) := mul_le_mul_of_nonneg_left hfar' hslope.le
  linarith

end Lines

section Search

variable {i start : ℤ} {e : ℕ} {keys : List ℤ} {h h' : Hull}

theorem checkPoint_ranked_iff (hholds : Holds .int64 h' (ranked i keys)) (heps : h'.epsilon = e)
    (hlo : -2 ^ 63 ≤ i - e) (hhi : i + keys.length + e < 2 ^ 63) {x : ℤ} (hx : ∀ k ∈ keys, k < x) :
    (checkPoint .int64 h' x (i + keys.length)).1 = true ↔
      FitsRanks e (ranked i keys ++ [(x, i + keys.length)]) := by
  have hranks : ∀ p ∈ ranked i keys ++ [(x, i + keys.length)],
      -2 ^ 63 ≤ p.2 - e ∧ p.2 + e < 2 ^ 63 := by
    intro p hp
    rcases List.mem_append.mp hp with hp | hp
    · have := mem_ranked hp
      omega
    · obtain rfl := List.mem_singleton.mp hp
      dsimp only
      omega
  have hmem : ∀ p ∈ ranked i keys ++ [(x, i + keys.length)], Limits.int64.Mem p.2 := by
    intro p hp
    have := hranks p hp
    simp only [Limits.Mem, Limits.int64]
    omega
  rw [checkPoint_eq, ← fitsBands_int64_plain hranks, fitsBands_iff, ← heps]
  exact (Holds.addPoint hholds (heps ▸ Int.natCast_nonneg e)
    (fun p hp => hx p.1 (mem_ranked hp).1)
    (fun p hp => hmem p (List.mem_append_left _ hp)) (hmem (x, i + keys.length) (by simp))).1

theorem holds_of_accepted (hsorted : keys.Pairwise (· < ·)) (heps : h.epsilon = e)
    (hlo : -2 ^ 63 ≤ i - e) (hhi : i + keys.length + e < 2 ^ 63)
    (hacc : acceptAll (addPoint .int64) h.reset (ranked i keys) = .ok (some h')) :
    Holds .int64 h' (ranked i keys) ∧ h'.epsilon = e := by
  have hmem : ∀ p ∈ ranked i keys, Limits.int64.Mem p.2 := by
    intro p hp
    have := mem_ranked hp
    simp only [Limits.Mem, Limits.int64]
    omega
  have hempty : Holds .int64 h.reset [] := holds_nil rfl
  have hnonneg : 0 ≤ h.reset.epsilon := heps ▸ Int.natCast_nonneg e
  obtain ⟨hholds, heps'⟩ := (drivesHull .int64).acceptAll hempty hnonneg
    (by simpa using pairwise_ranked hsorted) hmem hacc
  exact ⟨hholds, heps'.trans heps⟩

theorem searchOutside_of_short (hne : keys ≠ []) (hsorted : keys.Pairwise (· < ·))
    (hholds : Holds .int64 h' (ranked i keys)) (heps : h'.epsilon = e) (hlo : -2 ^ 63 ≤ i - e)
    (hhi : i + keys.length + e < 2 ^ 63) (hstart : ∀ k ∈ keys, k < start)
    (hshort : keys.length ≤ 2 * e + 1) (n : ℕ) :
    searchOutside .int64 n h' start (i + keys.length) = none := by
  refine searchOutside_eq_none (fun x hx => ?_) n
  have hbehind : ∀ k ∈ keys, k < x := fun k hk => (hstart k hk).trans_le hx
  exact (checkPoint_ranked_iff hholds heps hlo hhi hbehind).mpr
    (fitsRanks_of_short hne hsorted hbehind hshort)

theorem searchOutside_of_long (hsorted : keys.Pairwise (· < ·))
    (hholds : Holds .int64 h' (ranked i keys)) (heps : h'.epsilon = e) (hlo : -2 ^ 63 ≤ i - e)
    (hhi : i + keys.length + e < 2 ^ 63) (start : ℤ) (hlong : 2 * e + 2 ≤ keys.length) :
    ∃ n r, searchOutside .int64 n h' start (i + keys.length) = some r := by
  have hne : keys ≠ [] := by
    rintro rfl
    simp at hlong
  obtain ⟨bound, hbound⟩ : ∃ bound, ∀ k ∈ keys, k < bound :=
    ⟨keys.foldr max 0 + 1, fun k hk => Int.lt_add_one_of_le (List.le_max_of_le' 0 hk le_rfl)⟩
  obtain ⟨x, hx, hno⟩ := exists_not_fitsRanks (i := i) hne hsorted (max start bound) hlong
  refine exists_searchOutside ((le_max_left _ _).trans hx)
    (Bool.eq_false_iff.mpr fun hyes => hno ?_)
  exact (checkPoint_ranked_iff hholds heps hlo hhi fun k hk =>
    (hbound k hk).trans_le ((le_max_right _ _).trans hx)).mp hyes

end Search

/-- The search behind a segment of consecutive ranks reaches a key outside exactly when the segment
has at least `2 * e + 2` keys, wherever it starts. -/
theorem searchOutside_ends_iff (keys : List ℤ) (e : ℕ) (i start : ℤ) (h h' : Hull)
    (hne : keys ≠ []) (hsorted : keys.Pairwise (· < ·)) (heps : h.epsilon = e)
    (hlo : -2 ^ 63 ≤ i - e) (hhi : i + keys.length + e < 2 ^ 63)
    (hstart : ∀ k ∈ keys, k < start)
    (hacc : acceptAll (addPoint .int64) h.reset (ranked i keys) = .ok (some h')) :
    (∃ n r, searchOutside .int64 n h' start (i + keys.length) = some r) ↔
      2 * e + 2 ≤ keys.length := by
  obtain ⟨hholds, heps'⟩ := holds_of_accepted hsorted heps hlo hhi hacc
  constructor
  · rintro ⟨n, r, hr⟩
    by_contra hshort
    cases hr.symm.trans (searchOutside_of_short hne hsorted hholds heps' hlo hhi hstart
      (by omega) n)
  · exact searchOutside_of_long hsorted hholds heps' hlo hhi start

theorem searchOutside_ends_two_keys : ∃ h',
    acceptAll (addPoint .int64) (Hull.reset { epsilon := 0 }) (ranked 1 [10, 20]) =
      .ok (some h') ∧
    ∃ n r, searchOutside .int64 n h' 21 3 = some r :=
  ⟨_, rfl, (searchOutside_ends_iff [10, 20] 0 1 21 { epsilon := 0 } _ (by decide) (by decide) rfl
    (by decide) (by decide) (by decide) rfl).mpr (by decide)⟩

theorem searchOutside_three_keys : ∃ h',
    acceptAll (addPoint .int64) (Hull.reset { epsilon := 1 }) (ranked 1 [10, 20, 30]) =
      .ok (some h') ∧
    ∀ n, searchOutside .int64 n h' 31 4 = none := by
  obtain ⟨h', hacc⟩ : ∃ h', acceptAll (addPoint .int64) (Hull.reset { epsilon := 1 })
      (ranked 1 [10, 20, 30]) = .ok (some h') := ⟨_, rfl⟩
  obtain ⟨hholds, heps⟩ := holds_of_accepted (e := 1) (by decide) rfl (by decide) (by decide) hacc
  exact ⟨h', hacc, searchOutside_of_short (by decide) (by decide) hholds heps (by decide)
    (by decide) (by decide) (by decide)⟩

end LearnedIndexFramework.Metric.Generator
