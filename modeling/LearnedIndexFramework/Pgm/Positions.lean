import LearnedIndexFramework.Pgm.Prediction

/-! The segments of one level of the static index find the ranks of keys within their slack. -/

namespace LearnedIndexFramework.Pgm

open Lib LearnedIndexFramework.Metric

def position (s next : Segment) (k : ℤ) : ℕ :=
  min (truncate (s.product k) + s.intercept).toNat (next.intercept % 2 ^ 64).toNat

section Ranked

variable {ks : List ℤ} {before run behind : List (ℤ × ℤ)} {p q : ℤ × ℤ} {k : ℤ}

theorem getElem?_ranked (i : ℤ) (keys : List ℤ) (j : ℕ) :
    (ranked i keys)[j]? = keys[j]?.map fun x => (x, i + j) := by
  induction keys generalizing i j with
  | nil => rfl
  | cons key keys ih =>
    cases j with
    | zero => simp [ranked]
    | succ j =>
      rw [ranked, List.getElem?_cons_succ, List.getElem?_cons_succ, ih]
      push_cast
      simp only [add_comm, add_left_comm]

theorem getElem?_of_mem_ranked (hp : p ∈ ranked 0 ks) : ks[p.2.toNat]? = some p.1 ∧ 0 ≤ p.2 := by
  obtain ⟨j, hj⟩ := List.mem_iff_getElem?.mp hp
  rw [getElem?_ranked, Option.map_eq_some_iff] at hj
  obtain ⟨x, hx, rfl⟩ := hj
  simp only [zero_add, Int.toNat_natCast]
  exact ⟨hx, Int.natCast_nonneg j⟩

theorem mem_ranked_of_getElem? {j : ℕ} {x : ℤ} (hx : ks[j]? = some x) :
    (x, (j : ℤ)) ∈ ranked 0 ks := by
  refine List.mem_iff_getElem?.mpr ⟨j, ?_⟩
  rw [getElem?_ranked, hx]
  simp

theorem rank_sub_le {i x : ℤ} {keys : List ℤ} (hx : ∀ y ∈ keys, x < y)
    (h : keys.Pairwise (· < ·)) (hp : p ∈ ranked (i + 1) keys) : p.2 - i ≤ p.1 - x := by
  induction keys generalizing i x with
  | nil => cases hp
  | cons key keys ih =>
    obtain ⟨hkey, h⟩ := List.pairwise_cons.mp h
    have hlt := hx key List.mem_cons_self
    rcases List.mem_cons.mp hp with rfl | hp
    · simp only
      omega
    · have := ih hkey h hp
      omega

theorem rising_ranked {i : ℤ} {keys : List ℤ} (h : keys.Pairwise (· < ·)) :
    (ranked i keys).Pairwise Rising := by
  induction keys generalizing i with
  | nil => exact .nil
  | cons key keys ih =>
    obtain ⟨hkey, h⟩ := List.pairwise_cons.mp h
    refine .cons (fun p hp => ⟨?_, rank_sub_le hkey h hp⟩) (ih h)
    have := (mem_ranked hp).2.1
    simp only
    omega

theorem rank_lt_of_run (hsplit : before ++ run ++ behind = ranked 0 ks)
    (hhead : run.head? = some q) (hp : p ∈ run) : p.2 - q.2 < run.length := by
  have hget : ∀ (j : ℕ) (r : ℤ × ℤ), run[j]? = some r → r.2 = before.length + j := by
    intro j r hr
    have hlt := (List.getElem?_eq_some_iff.mp hr).1
    have hranked := getElem?_ranked 0 ks (before.length + j)
    rw [← hsplit, List.append_assoc, List.getElem?_append_right (by omega),
      List.getElem?_append_left (by omega), Nat.add_sub_cancel_left, hr] at hranked
    obtain ⟨x, -, hx⟩ := Option.map_eq_some_iff.mp hranked.symm
    rw [← hx]
    push_cast
    exact zero_add _
  obtain ⟨j, hj⟩ := List.mem_iff_getElem?.mp hp
  have hlt := (List.getElem?_eq_some_iff.mp hj).1
  have hq := hget 0 q (by rwa [← List.head?_eq_getElem?])
  have := hget j p hj
  omega

end Ranked

section Position

variable {epsilon : ℕ} {ks : List ℤ} {before run behind : List (ℤ × ℤ)} {s next : Segment}
  {head : ℤ × ℤ} {k : ℤ}

structure Between (epsilon m : ℕ) (behind : List (ℤ × ℤ)) (next : Segment) : Prop where
  key : ∀ q ∈ behind.head?, next.key = q.1
  intercept : ∀ q ∈ behind.head?, q.2 - epsilon ≤ next.intercept ∧
    next.intercept ≤ q.2 + epsilon ∧ 0 ≤ next.intercept ∧ next.intercept < 2 ^ 31
  last : behind = [] → next.intercept = m

variable {m : ℕ}

theorem position_le (hsorted : ks.Pairwise (· < ·))
    (hsplit : before ++ run ++ behind = ranked 0 ks) (hs : Fits epsilon run s)
    (hhead : run.head? = some head) (hnext : Between epsilon m behind next)
    (hnarrow : run.length + 2 * epsilon ≤ 5 * 2 ^ 19) (hm : m < 2 ^ 31)
    (hkey : s.key ≤ k) (hlt : k < next.key) (hk : k - s.key < 2 ^ 64) :
    position s next k ≤ (if ∃ x ∈ ks, k ≤ x then rank id k ks + epsilon else m) := by
  have hasc : KeyAscending id ks := hsorted
  have hrising := rising_ranked (i := 0) hsorted
  rw [← hsplit] at hrising
  have hmod : ∀ z : ℤ, 0 ≤ z → z < 2 ^ 31 → z % 2 ^ 64 = z := fun z h0 h => by omega
  split
  case isFalse hnone =>
    refine (min_le_right _ _).trans ?_
    cases behind with
    | nil =>
      rw [hnext.last rfl, hmod m (by omega) (by omega)]
      exact le_rfl
    | cons q behind =>
      have hq : q ∈ ranked 0 ks := hsplit ▸ List.mem_append_right _ List.mem_cons_self
      refine absurd ⟨q.1, (mem_ranked hq).1, ?_⟩ hnone
      exact (hlt.trans_eq (hnext.key q rfl)).le
  case isTrue hsome =>
    have hlen : rank id k ks < ks.length := by
      obtain ⟨x, hx, hkx⟩ := hsome
      obtain ⟨i, hi⟩ := List.mem_iff_getElem?.mp hx
      have hge : ¬i < rank id k ks := mt (hasc.lt_iff hi).mpr hkx.not_gt
      have := (List.getElem?_eq_some_iff.mp hi).1
      omega
    have hx := List.getElem?_eq_getElem hlen
    generalize ks[rank id k ks] = x at hx
    have hkx : k ≤ x := not_lt.mp (mt (hasc.lt_iff hx).mp (lt_irrefl _))
    have hp := mem_ranked_of_getElem? hx
    rw [← hsplit] at hp
    rcases List.mem_append.mp hp with hp | hp
    · rcases List.mem_append.mp hp with hp | hp
      · have hbefore := (List.pairwise_append.mp (List.pairwise_append.mp hrising).1).2.2 _ hp head
          (List.mem_of_mem_head? hhead)
        have := hbefore.lt
        rw [← hs.key head hhead] at this
        simp only at this
        omega
      · refine (min_le_left _ _).trans ?_
        have hspan := rank_lt_of_run hsplit hhead hp
        obtain ⟨-, hle⟩ := hs.predict_le hhead hp (by omega) hkey hkx hk
        simp only at hle
        omega
    · cases behind with
      | nil => cases hp
      | cons q behind =>
        refine (min_le_right _ _).trans ?_
        obtain ⟨-, hhi, hpos, hsmall⟩ := hnext.intercept q rfl
        rw [hmod _ hpos hsmall]
        have hq : q ∈ ranked 0 ks := hsplit ▸ List.mem_append_right _ List.mem_cons_self
        obtain ⟨hget, hqpos⟩ := getElem?_of_mem_ranked hq
        have hge : ¬q.2.toNat < rank id k ks := by
          refine mt (hasc.lt_iff hget).mpr ?_
          rw [id, ← hnext.key q rfl]
          exact hlt.not_gt
        have hle : q.2 ≤ rank id k ks := by
          rcases List.mem_cons.mp hp with heq | hp
          · rw [← heq]
          · exact ((List.pairwise_cons.mp (List.pairwise_append.mp hrising).2.1).1 _ hp).1.le
        omega

theorem le_position (hsorted : ks.Pairwise (· < ·))
    (hsplit : before ++ run ++ behind = ranked 0 ks) (hs : Fits epsilon run s)
    (hhead : run.head? = some head) (hnext : Between epsilon m behind next)
    (hnarrow : run.length + 2 * epsilon ≤ 5 * 2 ^ 19) (hm : m < 2 ^ 31) (hle : ks.length ≤ m)
    (hkey : s.key ≤ k) (hlt : k < next.key) (hk : k - s.key < 2 ^ 64) :
    rankAbove id k ks ≤ position s next k + epsilon + 2 := by
  have hasc : KeyAscending id ks := hsorted
  have hrising := rising_ranked (i := 0) hsorted
  rw [← hsplit] at hrising
  have hheadmem := List.mem_of_mem_head? hhead
  have hheadkey := hs.key head hhead
  obtain ⟨x, hx, hxk, hp⟩ : ∃ x, ks[rankAbove id k ks - 1]? = some x ∧ x ≤ k ∧
      (x, ((rankAbove id k ks - 1 : ℕ) : ℤ)) ∈ run := by
    have hheadranked : head ∈ ranked 0 ks := by
      rw [← hsplit]
      exact List.mem_append_left _ (List.mem_append_right _ hheadmem)
    obtain ⟨hget, hheadpos⟩ := getElem?_of_mem_ranked hheadranked
    have hheadlt : head.2.toNat < rankAbove id k ks :=
      (hasc.le_iff hget).mp (by rwa [id, ← hheadkey])
    have hlen : rankAbove id k ks ≤ ks.length := rankAbove_le_length
    have hx := List.getElem?_eq_getElem (show rankAbove id k ks - 1 < ks.length by omega)
    generalize ks[rankAbove id k ks - 1] = x at hx
    have hxk : x ≤ k := (hasc.le_iff hx).mpr (by omega)
    refine ⟨x, hx, hxk, ?_⟩
    have hp := mem_ranked_of_getElem? hx
    rw [← hsplit] at hp
    rcases List.mem_append.mp hp with hp | hp
    · rcases List.mem_append.mp hp with hp | hp
      · have hbefore := ((List.pairwise_append.mp (List.pairwise_append.mp hrising).1).2.2 _ hp head
          hheadmem).1
        simp only at hbefore
        omega
      · exact hp
    · cases behind with
      | nil => cases hp
      | cons q behind =>
        have hqx : q.1 ≤ x := by
          rcases List.mem_cons.mp hp with heq | hp
          · rw [← heq]
          · exact ((List.pairwise_cons.mp (List.pairwise_append.mp hrising).2.1).1 _ hp).lt.le
        rw [← hnext.key q rfl] at hqx
        omega
  have hspan := rank_lt_of_run hsplit hhead hp
  have hkeyx : s.key ≤ x := by
    rw [hheadkey]
    obtain ⟨r, hr⟩ := List.head?_eq_some_iff.mp hhead
    rw [hr] at hp
    rcases List.mem_cons.mp hp with heq | hp
    · rw [← heq]
    · rw [hr] at hrising
      exact ((List.pairwise_cons.mp (List.pairwise_append.mp
        (List.pairwise_append.mp hrising).1).2.1).1 _ hp).lt.le
  have hpredict := hs.le_predict hhead hp (by omega) hkeyx hxk hk
  simp only at hpredict
  have hnext' : (rankAbove id k ks : ℤ) - epsilon - 2 ≤ next.intercept % 2 ^ 64 := by
    cases behind with
    | nil =>
      rw [hnext.last rfl]
      have hlen : rankAbove id k ks ≤ ks.length := rankAbove_le_length
      omega
    | cons q behind =>
      obtain ⟨hlo, -, hpos, hsmall⟩ := hnext.intercept q rfl
      have hlt := ((List.pairwise_append.mp hrising).2.2 _ (List.mem_append_right _ hp) q
        List.mem_cons_self).1
      simp only at hlt
      omega
  rw [position]
  omega

end Position

end LearnedIndexFramework.Pgm
