import LearnedIndexFramework.Lib.Tournament
import LearnedIndexFramework.Pgm.Iterator
import Mathlib.Data.Prod.Lex

/-! The loser tree of an iterator keeps the first of the current keys, of equal ones that of the
newest level. -/

namespace LearnedIndexFramework.Pgm

open Function Lib

variable {K : Type}

def Loser.entry (l : Loser K) : K ×ₗ ℕ := toLex (l.key, l.source)

def entries (losers : ℕ → Loser K) : ℕ → K ×ₗ ℕ := fun pos => (losers pos).entry

theorem entries_update (losers : ℕ → Loser K) (pos : ℕ) (l : Loser K) :
    entries (update losers pos l) = update (entries losers) pos l.entry := by
  funext p
  by_cases hp : p = pos
  · subst hp
    simp [entries]
  · simp [entries, hp]

variable [LinearOrder K]

theorem entry_lt_iff {l l' : Loser K} : l.entry < l'.entry ↔
    l.key < l'.key ∨ l'.key ≥ l.key ∧ l.source < l'.source := by
  rw [Loser.entry, Loser.entry, Prod.Lex.toLex_lt_toLex]
  constructor
  · rintro (hlt | ⟨heq, hlt⟩)
    · exact .inl hlt
    · exact .inr ⟨heq.le, hlt⟩
  · rintro (hlt | ⟨hle, hlt⟩)
    · exact .inl hlt
    · rcases hle.lt_or_eq with hlt' | heq
      · exact .inl hlt'
      · exact .inr ⟨heq, hlt⟩

namespace LoserTree

section Replay

theorem replay_eq {n fuel pos : ℕ} (hfuel : n ≤ fuel) (hpos : pos < 2 ^ n)
    (hway : ∀ m < n, 0 < pos / 2 ^ m) (cand : Loser K) (losers : ℕ → Loser K) :
    (replay fuel pos cand losers).1.entry = (Lib.replay n pos cand.entry (entries losers)).1 ∧
      entries (replay fuel pos cand losers).2 =
        (Lib.replay n pos cand.entry (entries losers)).2 := by
  induction n generalizing fuel pos cand losers with
  | zero =>
    obtain rfl : pos = 0 := by omega
    cases fuel <;> exact ⟨rfl, rfl⟩
  | succ n ih =>
    obtain ⟨fuel, rfl⟩ : ∃ f, fuel = f + 1 := ⟨fuel - 1, by omega⟩
    have hpos' : 0 < pos := by simpa using hway 0 (Nat.succ_pos n)
    have hhalf : pos / 2 < 2 ^ n := by
      rw [pow_succ] at hpos
      omega
    have hway' : ∀ m < n, 0 < pos / 2 / 2 ^ m := by
      intro m hm
      rw [Nat.div_div_eq_div_mul, ← pow_succ']
      exact hway (m + 1) (by omega)
    rw [replay, if_pos hpos', Lib.replay]
    by_cases hlt : (losers pos).entry < cand.entry
    · rw [if_pos (entry_lt_iff.mp hlt), if_pos (show entries losers pos < cand.entry from hlt)]
      rw [show update (entries losers) pos cand.entry = entries (update losers pos cand) from
        (entries_update losers pos cand).symm]
      exact ih (by omega) hhalf hway' _ _
    · rw [if_neg (mt entry_lt_iff.mpr hlt), if_neg (show ¬ entries losers pos < cand.entry from hlt)]
      exact ih (by omega) hhalf hway' _ _

end Replay

section Init

theorem depth_unique {a p m m' : ℕ} (hm : 2 ^ a ≤ p / 2 ^ m) (hm' : p / 2 ^ m' < 2 ^ (a + 1))
    (hle : 2 ^ a ≤ p / 2 ^ m') (hlt : p / 2 ^ m < 2 ^ (a + 1)) : m = m' := by
  have habove : ∀ {i j : ℕ}, i < j → 2 ^ a ≤ p / 2 ^ j → ¬ p / 2 ^ i < 2 ^ (a + 1) := by
    intro i j hij hj hi
    obtain ⟨n, rfl⟩ : ∃ n, j = i + (n + 1) := ⟨j - i - 1, by omega⟩
    rw [pow_add, ← Nat.div_div_eq_div_mul, pow_succ', ← Nat.div_div_eq_div_mul] at hj
    have := Nat.div_le_self (p / 2 ^ i / 2) (2 ^ n)
    rw [pow_succ] at hi
    omega
  rcases Nat.lt_trichotomy m m' with h | h | h
  · exact absurd hlt (habove h hle)
  · exact h
  · exact absurd hm' (habove h hm)

theorem div_two_pow_succ_eq_iff {p m root : ℕ} :
    p / 2 ^ (m + 1) = root ↔ p / 2 ^ m = 2 * root ∨ p / 2 ^ m = 2 * root + 1 := by
  rw [div_two_pow_succ]
  omega

variable {d h root : ℕ} {leaf : ℕ → K ×ₗ ℕ} {losers : ℕ → Loser K}

theorem leaf_of_div {q y : ℕ} (hd : h ≤ d) (hq : q / 2 ^ h = y) (hle : 2 ^ (d - h) ≤ y)
    (hlt : y < 2 ^ (d - h + 1)) : 2 ^ d ≤ q ∧ q < 2 ^ (d + 1) := by
  subst hq
  rw [Nat.le_div_iff_mul_le (Nat.two_pow_pos h), ← pow_add] at hle
  rw [Nat.div_lt_iff_lt_mul (Nat.two_pow_pos h), ← pow_add] at hlt
  rw [show d - h + h = d by omega] at hle
  rw [show d - h + 1 + h = d + 1 by omega] at hlt
  exact ⟨hle, hlt⟩

theorem div_ne_of_leaf {q y m : ℕ} (hd : h ≤ d) (hq : 2 ^ d ≤ q) (hy : y < 2 ^ (d - h + 1))
    (hm : m < h) : q / 2 ^ m ≠ y := by
  rintro rfl
  have hle : 2 ^ (d - m) ≤ q / 2 ^ m := by
    rw [Nat.le_div_iff_mul_le (Nat.two_pow_pos m), ← pow_add]
    rwa [show d - m + m = d by omega]
  have hpow : 2 ^ (d - h + 1) ≤ 2 ^ (d - m) := Nat.pow_le_pow_right two_pos (by omega)
  omega

structure Played (leaf : ℕ → K ×ₗ ℕ) (h root : ℕ) (losers : ℕ → Loser K)
    (run : ℕ × (ℕ → Loser K)) : Prop where
  below : run.1 / 2 ^ h = root
  won : leaf run.1 = winner leaf h root
  node : ∀ m p, m < h → p / 2 ^ m = root → (run.2 p).entry = loser leaf (h - m - 1) p
  frame : ∀ p, (∀ m < h, p / 2 ^ m ≠ root) → run.2 p = losers p

omit [LinearOrder K] in
theorem entry_of_frame {losers' : ℕ → Loser K} (hd : h ≤ d) (hroot : root < 2 ^ (d - h + 1))
    (hframe : ∀ p, (∀ m < h, p / 2 ^ m ≠ root) → losers' p = losers p)
    (hleaf : ∀ q, 2 ^ d ≤ q → q < 2 ^ (d + 1) → (losers q).entry = leaf q) :
    ∀ q, 2 ^ d ≤ q → q < 2 ^ (d + 1) → (losers' q).entry = leaf q := by
  intro q hq hq'
  rw [hframe q fun m hm => div_ne_of_leaf hd hq hroot hm]
  exact hleaf q hq hq'

section Match

variable {left right : ℕ × (ℕ → Loser K)}

theorem Played.node_right {a m p : ℕ} (hlow : 2 ^ a ≤ 2 * root) (hhigh : 2 * root + 1 < 2 ^ (a + 1))
    (hl : Played leaf h (2 * root) losers left) (hr : Played leaf h (2 * root + 1) left.2 right)
    (hm : m < h) (hp : p / 2 ^ m = 2 * root ∨ p / 2 ^ m = 2 * root + 1) :
    (right.2 p).entry = loser leaf (h - m - 1) p := by
  rcases hp with hp | hp
  · rw [hr.frame p fun m' _ hp' => ?_]
    · exact hl.node m p hm hp
    · obtain rfl := @depth_unique a p m m' (by omega) (by omega) (by omega) (by omega)
      omega
  · exact hr.node m p hm hp

theorem Played.match_root {a w : ℕ} {other : Loser K} (hpos : 0 < root) (hlow : 2 ^ a ≤ 2 * root)
    (hhigh : 2 * root + 1 < 2 ^ (a + 1)) (hl : Played leaf h (2 * root) losers left)
    (hr : Played leaf h (2 * root + 1) left.2 right) (hbelow : w / 2 ^ (h + 1) = root)
    (hwon : leaf w = winner leaf (h + 1) root) (hother : other.entry = loser leaf h root) :
    Played leaf (h + 1) root losers (w, update right.2 root other) := by
  refine ⟨hbelow, hwon, fun m p hm hp => ?_, fun p hp => ?_⟩ <;> dsimp only
  · cases m with
    | zero =>
      obtain rfl : p = root := by simpa using hp
      rw [update_self]
      exact hother
    | succ m =>
      rw [div_two_pow_succ_eq_iff] at hp
      have hne : p ≠ root := by
        rintro rfl
        have := Nat.div_le_self p (2 ^ m)
        omega
      rw [update_of_ne hne, hl.node_right hlow hhigh hr (by omega) hp]
      congr 1
      omega
  · rw [update_of_ne (by simpa using hp 0 (Nat.succ_pos h))]
    have hhalf : ∀ m < h, p / 2 ^ m ≠ 2 * root ∧ p / 2 ^ m ≠ 2 * root + 1 := fun m hm => by
      have := mt div_two_pow_succ_eq_iff.mpr (hp (m + 1) (by omega))
      tauto
    exact (hr.frame p fun m hm => (hhalf m hm).2).trans (hl.frame p fun m hm => (hhalf m hm).1)

theorem Played.match_keys {a : ℕ} (hpos : 0 < root) (hlow : 2 ^ a ≤ 2 * root)
    (hhigh : 2 * root + 1 < 2 ^ (a + 1)) (hl : Played leaf h (2 * root) losers left)
    (hr : Played leaf h (2 * root + 1) left.2 right)
    (hleft : (right.2 left.1).entry = leaf left.1)
    (hright : (right.2 right.1).entry = leaf right.1)
    (hties : (right.2 left.1).key ≤ (right.2 right.1).key → leaf left.1 ≤ leaf right.1) :
    Played leaf (h + 1) root losers
      (if (right.2 left.1).key ≤ (right.2 right.1).key
        then (left.1, update right.2 root (right.2 right.1))
        else (right.1, update right.2 root (right.2 left.1))) := by
  by_cases hle : (right.2 left.1).key ≤ (right.2 right.1).key
  · have hentry := hties hle
    rw [hl.won, hr.won] at hentry
    rw [if_pos hle]
    refine hl.match_root hpos hlow hhigh hr ?_ ?_ ?_
    · exact div_two_pow_succ_eq_iff.mpr (.inl hl.below)
    · rw [winner, min_eq_left hentry, hl.won]
    · rw [hright, loser, max_eq_right hentry, hr.won]
  · have hentry : leaf right.1 ≤ leaf left.1 := by
      rw [← hleft, ← hright]
      exact (Prod.Lex.lt_iff.mpr (.inl (not_le.mp hle))).le
    rw [hl.won, hr.won] at hentry
    rw [if_neg hle]
    refine hl.match_root hpos hlow hhigh hr ?_ ?_ ?_
    · exact div_two_pow_succ_eq_iff.mpr (.inr hr.below)
    · rw [winner, min_eq_right hentry, hr.won]
    · rw [hleft, loser, max_eq_left hentry, hl.won]

end Match

theorem initWinner_spec
    (hties : ∀ q q', 2 ^ d ≤ q → q < q' → q' < 2 ^ (d + 1) →
      (ofLex (leaf q)).1 ≤ (ofLex (leaf q')).1 → leaf q ≤ leaf q')
    {fuel : ℕ} (hfuel : h ≤ fuel) (hd : h ≤ d) (hlo : 2 ^ (d - h) ≤ root)
    (hhi : root < 2 ^ (d - h + 1))
    (hleaf : ∀ q, 2 ^ d ≤ q → q < 2 ^ (d + 1) → (losers q).entry = leaf q) :
    Played leaf h root losers (initWinner (2 ^ d) fuel root losers) := by
  induction h generalizing fuel root losers with
  | zero =>
    have hstop : initWinner (2 ^ d) fuel root losers = (root, losers) := by
      cases fuel with
      | zero => rfl
      | succ fuel =>
        rw [Nat.sub_zero] at hlo
        rw [initWinner, if_pos hlo]
    rw [hstop]
    exact ⟨by simp, rfl, fun m p hm => absurd hm (Nat.not_lt_zero m), fun p _ => rfl⟩
  | succ h ih =>
    obtain ⟨fuel, rfl⟩ : ∃ f, fuel = f + 1 := ⟨fuel - 1, by omega⟩
    have hpos : 0 < root := (Nat.two_pow_pos _).trans_le hlo
    have hdepth : d - h = d - (h + 1) + 1 := by omega
    have hlow : 2 ^ (d - h) ≤ 2 * root := by
      rw [hdepth, pow_succ']
      omega
    have hhigh : 2 * root + 1 < 2 ^ (d - h + 1) := by
      rw [hdepth, pow_succ']
      omega
    have hroot : root < 2 ^ d :=
      hhi.trans_le (Nat.pow_le_pow_right two_pos (by omega))
    rw [initWinner, if_neg (not_le.mpr hroot)]
    have hl := @ih (2 * root) losers fuel (by omega) (by omega) hlow (by omega) hleaf
    generalize initWinner (2 ^ d) fuel (2 * root) losers = left at hl
    have hleaf₁ := entry_of_frame (by omega) (by omega) hl.frame hleaf
    have hr := @ih (2 * root + 1) left.2 fuel (by omega) (by omega) (by omega) hhigh hleaf₁
    simp only
    generalize initWinner (2 ^ d) fuel (2 * root + 1) left.2 = right at hr
    have hleaf₂ := entry_of_frame (by omega) hhigh hr.frame hleaf₁
    obtain ⟨hl₁, hl₂⟩ := leaf_of_div (by omega) hl.below hlow (by omega)
    obtain ⟨hr₁, hr₂⟩ := leaf_of_div (by omega) hr.below (by omega) hhigh
    refine hl.match_keys hpos hlow hhigh hr (hleaf₂ _ hl₁ hl₂) (hleaf₂ _ hr₁ hr₂) fun hle => ?_
    have hlr : left.1 < right.1 := by
      by_contra hge
      have := Nat.div_le_div_right (c := 2 ^ h) (not_lt.mp hge)
      rw [hl.below, hr.below] at this
      omega
    refine hties _ _ hl₁ hlr hr₂ ?_
    rw [← hleaf₂ _ hl₁ hl₂, ← hleaf₂ _ hr₁ hr₂]
    exact hle

end Init

section Plays

structure Plays (tree : LoserTree K) (d : ℕ) (leaf : ℕ → K ×ₗ ℕ) : Prop where
  k_eq : tree.k = 2 ^ d
  losers : IsLoserTree d leaf (entries tree.losers)

theorem Plays.init {tree : LoserTree K} {d : ℕ} {leaf : ℕ → K ×ₗ ℕ} (hk : tree.k = 2 ^ d)
    (hties : ∀ q q', 2 ^ d ≤ q → q < q' → q' < 2 ^ (d + 1) →
      (ofLex (leaf q)).1 ≤ (ofLex (leaf q')).1 → leaf q ≤ leaf q')
    (hleaf : ∀ q, 2 ^ d ≤ q → q < 2 ^ (d + 1) → (tree.losers q).entry = leaf q) :
    tree.init.Plays d leaf := by
  obtain ⟨hw, hwin, hnode, hframe⟩ := @initWinner_spec _ _ d d 1 leaf _
    hties (2 ^ d) Nat.lt_two_pow_self.le le_rfl (by simp) (by simp) hleaf
  have hinit : tree.init.losers = update (initWinner (2 ^ d) (2 ^ d) 1 tree.losers).2 0
      ((initWinner (2 ^ d) (2 ^ d) 1 tree.losers).2
        (initWinner (2 ^ d) (2 ^ d) 1 tree.losers).1) := by
    rw [← hk]
    rfl
  generalize initWinner (2 ^ d) (2 ^ d) 1 tree.losers = run at hw hwin hnode hframe hinit
  refine ⟨hk, ?_, fun h p hh hlo hhi => ?_⟩
  · have hplace : 2 ^ d ≤ run.1 ∧ run.1 < 2 ^ (d + 1) := by
      have hpos := Nat.two_pow_pos d
      rw [Nat.div_eq_iff (Nat.two_pow_pos d)] at hw
      rw [pow_succ]
      omega
    have hleafWinner : run.2 run.1 = tree.losers run.1 := by
      refine hframe _ fun m hm hp => ?_
      have hlow : 2 ^ (d - m) ≤ run.1 / 2 ^ m := by
        rw [Nat.le_div_iff_mul_le (Nat.two_pow_pos m), ← pow_add]
        rw [show d - m + m = d by omega]
        exact hplace.1
      have hpow : 2 ^ 1 ≤ 2 ^ (d - m) := Nat.pow_le_pow_right two_pos (by omega)
      omega
    rw [entries, hinit, update_self, ← hwin, ← hleaf _ hplace.1 hplace.2, hleafWinner]
  · have hpos : p ≠ 0 := by
      have := Nat.two_pow_pos (d - h - 1)
      omega
    have hone : p / 2 ^ (d - h - 1) = 1 := by
      have hsucc : 2 ^ (d - h) = 2 * 2 ^ (d - h - 1) := by
        rw [← pow_succ', show d - h - 1 + 1 = d - h by omega]
      rw [Nat.div_eq_iff (Nat.two_pow_pos _)]
      omega
    have hentry := hnode (d - h - 1) p (by omega) hone
    rw [show d - (d - h - 1) - 1 = h by omega] at hentry
    rw [entries, hinit, update_of_ne hpos]
    exact hentry

variable [BoundedOrder K]

omit [LinearOrder K] [BoundedOrder K] in
theorem losers_insertStart (tree : LoserTree K) (key : K) (source : ℕ) :
    (tree.insertStart key source).losers =
      update tree.losers (tree.k + source) ⟨key, source⟩ := rfl

theorem losers_new_of_le {ik pos : ℕ} (hik : 0 < ik) (hpos : nextPow2 ik + (ik - 1) ≤ pos) :
    ((LoserTree.new ik : LoserTree K).losers pos) = ⟨⊤, 255⟩ :=
  if_pos ⟨hik, hpos⟩

theorem Plays.deleteMinInsert {tree : LoserTree K} {d : ℕ} {leaf : ℕ → K ×ₗ ℕ}
    (h : tree.Plays d leaf) (hsource : tree.minSource < 2 ^ d)
    (htop : leaf (2 ^ d + tree.minSource) = (tree.losers 0).entry) (key : Option K) :
    (tree.deleteMinInsert key).Plays d
      (update leaf (2 ^ d + tree.minSource) (toLex (key.getD ⊤, tree.minSource))) := by
  set q := 2 ^ d + tree.minSource with hq
  have hroot : q / 2 ^ d = 1 := by
    rw [hq, Nat.add_div_left _ (Nat.two_pow_pos d), Nat.div_eq_of_lt hsource]
  obtain ⟨hfirst, hsecond⟩ := @replay_eq _ _ d tree.k (q / 2)
    (by rw [h.k_eq]; exact Nat.lt_two_pow_self.le)
    (by have := Nat.two_pow_pos d; omega)
    (fun m hm => by
      rw [Nat.div_div_eq_div_mul, ← pow_succ']
      exact (Nat.two_pow_pos _).trans_le (way_mem hroot hm).1)
    ⟨key.getD ⊤, tree.minSource⟩ tree.losers
  have hreplay := h.losers.replay hroot htop.symm (toLex (key.getD ⊤, tree.minSource))
  have hrun : (tree.deleteMinInsert key).losers =
      update (replay tree.k (q / 2) ⟨key.getD ⊤, tree.minSource⟩ tree.losers).2 0
        (replay tree.k (q / 2) ⟨key.getD ⊤, tree.minSource⟩ tree.losers).1 := by
    rw [hq, ← h.k_eq]
    rfl
  refine ⟨h.k_eq, ?_⟩
  rw [hrun, entries_update, hfirst, hsecond]
  exact hreplay

end Plays

end LoserTree

end LearnedIndexFramework.Pgm
