import LearnedIndexFramework.Lib.Line
import LearnedIndexFramework.Metric.Model
import Mathlib.Data.List.GetD

/-! What the two partial hulls of the segmentation know about the lines that fit all
points accepted so far.  The upper and the lower hull are mirror images, so every fact is
stated once for a `Side`. -/

namespace LearnedIndexFramework.Metric

open Lib

inductive Side where
  | lower
  | upper
  deriving DecidableEq

namespace Side

def sign : Side → ℤ
  | lower => 1
  | upper => -1

def flip : Side → Side
  | lower => upper
  | upper => lower

@[simp] theorem sign_flip (s : Side) : s.flip.sign = -s.sign := by cases s <;> rfl

theorem forall_of_flip {Q : Side → Prop} (s : Side) (hs : Q s) (hflip : Q s.flip) : ∀ t, Q t := by
  intro t
  cases s <;> cases t <;> assumption

end Side

def Obeys (s : Side) (L : Line ℚ) (p : Point) : Prop :=
  (s.sign : ℚ) * p.y ≤ s.sign * L.eval p.x

theorem obeys_lower {L : Line ℚ} {p : Point} : Obeys .lower L p ↔ (p.y : ℚ) ≤ L.eval p.x := by
  simp [Obeys, Side.sign]

theorem obeys_upper {L : Line ℚ} {p : Point} : Obeys .upper L p ↔ L.eval p.x ≤ p.y := by
  simp [Obeys, Side.sign]

def lineOf (p q : Point) : Line ℚ := .through p.x p.y q.x q.y

@[simp] theorem eval_lineOf_left (p q : Point) : (lineOf p q).eval p.x = p.y :=
  Line.eval_through_left ..

theorem eval_lineOf_right {p q : Point} (h : p.x < q.x) : (lineOf p q).eval q.x = q.y :=
  Line.eval_through_right _ _ (by exact_mod_cast h)

section Cross

theorem cross_def (a b c : Point) :
    cross a b c = (b.x - a.x) * (c.y - a.y) - (b.y - a.y) * (c.x - a.x) := rfl

theorem cross_rotate (a b c : Point) : cross b c a = cross a b c := by
  simp only [cross_def]
  ring

theorem cross_swap (a b c : Point) : cross a b c = -cross b a c := by
  simp only [cross_def]
  ring

theorem cross_mul_sub (o p q b : Point) :
    cross o p b * (q.x - o.x) = cross o p q * (b.x - o.x) + cross o q b * (p.x - o.x) := by
  simp only [cross_def]
  ring

theorem lt_eval_lineOf_iff {p q : Point} (h : p.x < q.x) (r : Point) :
    (r.y : ℚ) < (lineOf p q).eval r.x ↔ cross p q r < 0 := by
  rw [lineOf, Line.lt_eval_through_iff _ _ _ _ (by exact_mod_cast h), cross_def]
  constructor
  · intro hlt
    have : (q.x - p.x) * (r.y - p.y) < (q.y - p.y) * (r.x - p.x) := by exact_mod_cast hlt
    linarith
  · intro hlt
    have : (q.x - p.x) * (r.y - p.y) < (q.y - p.y) * (r.x - p.x) := by linarith
    exact_mod_cast this

theorem eval_lineOf_lt_iff {p q : Point} (h : p.x < q.x) (r : Point) :
    (lineOf p q).eval r.x < r.y ↔ 0 < cross p q r := by
  rw [lineOf, Line.eval_through_lt_iff _ _ _ _ (by exact_mod_cast h), cross_def]
  constructor
  · intro hlt
    have : (q.y - p.y) * (r.x - p.x) < (q.x - p.x) * (r.y - p.y) := by exact_mod_cast hlt
    linarith
  · intro hlt
    have : (q.y - p.y) * (r.x - p.x) < (q.x - p.x) * (r.y - p.y) := by linarith
    exact_mod_cast this

theorem obeys_lineOf_iff {p q : Point} (h : p.x < q.x) (s : Side) (r : Point) :
    Obeys s (lineOf p q) r ↔ s.sign * cross p q r ≤ 0 := by
  cases s with
  | lower =>
    rw [obeys_lower, ← not_lt, eval_lineOf_lt_iff h]
    simp [Side.sign]
  | upper =>
    rw [obeys_upper, ← not_lt, lt_eval_lineOf_iff h]
    simp [Side.sign]

end Cross

def Bends (s : Side) : List Point → Prop
  | b :: q :: qs => b.x < q.x ∧ (∀ r ∈ qs, s.sign * cross b q r < 0) ∧ Bends s (q :: qs)
  | _ => True

theorem Bends.tail {s : Side} {b : Point} {l : List Point} (h : Bends s (b :: l)) : Bends s l := by
  cases l with
  | nil => trivial
  | cons q qs => exact h.2.2

theorem Bends.drop {s : Side} {l : List Point} (h : Bends s l) (k : ℕ) : Bends s (l.drop k) := by
  induction k generalizing l with
  | zero => simpa using h
  | succ k ih =>
    cases l with
    | nil => simpa using h
    | cons b l => simpa using ih h.tail

theorem Bends.lt_of_mem {s : Side} {b : Point} {l : List Point} (h : Bends s (b :: l)) :
    ∀ q ∈ l, b.x < q.x := by
  induction l generalizing b with
  | nil => simp
  | cons q qs ih =>
    intro r hr
    rcases List.mem_cons.mp hr with rfl | hr
    · exact h.1
    · exact h.1.trans (ih h.2.2 r hr)

theorem Bends.pairwise {s : Side} {l : List Point} (h : Bends s l) :
    l.Pairwise (fun p q => p.x < q.x) := by
  induction l with
  | nil => exact .nil
  | cons b l ih => exact .cons h.lt_of_mem (ih h.tail)

theorem Bends.take {s : Side} {l : List Point} (h : Bends s l) (m : ℕ) : Bends s (l.take m) := by
  induction l generalizing m with
  | nil => simpa using h
  | cons b l ih =>
    match m, l, h, ih with
    | 0, _, _, _ => trivial
    | 1, l, _, _ => simp [Bends]
    | m + 2, [], _, _ => simp [Bends]
    | m + 2, q :: qs, h, ih =>
      have htail := ih h.2.2 (m + 1)
      simp only [List.take_succ_cons] at htail ⊢
      exact ⟨h.1, fun r hr => h.2.1 r (List.mem_of_mem_take hr), htail⟩

theorem Bends.concat {s : Side} {l : List Point} {y z p : Point} (h : Bends s (l ++ [y, z]))
    (hz : z.x < p.x) (hturn : s.sign * cross y z p < 0) : Bends s (l ++ [y, z] ++ [p]) := by
  induction l with
  | nil =>
    exact ⟨h.1, by simpa using hturn, hz, by simp, trivial⟩
  | cons b l ih =>
    have htail := ih h.tail
    obtain ⟨q, r, rest, hrest⟩ : ∃ q r rest, l ++ [y, z] = q :: r :: rest := by
      match l with
      | [] => exact ⟨y, z, [], rfl⟩
      | [q] => exact ⟨q, y, [z], rfl⟩
      | q :: r :: l => exact ⟨q, r, l ++ [y, z], rfl⟩
    simp only [List.cons_append, hrest] at h htail ⊢
    refine ⟨h.1, ?_, htail⟩
    intro t ht
    rcases List.mem_append.mp (show t ∈ (r :: rest) ++ [p] from ht) with ht | ht
    · exact h.2.1 t ht
    · obtain rfl : t = p := by simpa using ht
      have hqr : s.sign * cross q r t < 0 := htail.2.1 t (by simp)
      have hbqr : s.sign * cross b q r < 0 := h.2.1 r (by simp)
      have hbq := h.1
      have hqx : q.x < r.x := h.2.2.1
      have hqt : q.x < t.x := htail.lt_of_mem t (by simp)
      have hid := congrArg (s.sign * ·) (cross_mul_sub q b r t)
      simp only [cross_swap q b t, cross_swap q b r] at hid
      by_contra hcon
      nlinarith [mul_nonneg (not_lt.mp hcon) (sub_nonneg.mpr hqx.le),
        mul_pos (neg_pos.mpr hqr) (sub_pos.mpr hbq), mul_pos (neg_pos.mpr hbqr) (sub_pos.mpr hqt)]

def Before (s : Side) (p h : Point) : Prop :=
  h.x < p.x ∨ h.x = p.x ∧ s.sign * h.y < s.sign * p.y

def Side.worse : Side → Slope → Slope → Bool
  | lower => Slope.gt
  | upper => Slope.lt

def Side.redundant : Side → ℤ → Bool
  | lower => fun c => c ≥ 0
  | upper => fun c => c ≤ 0

theorem worse_iff (s : Side) (b q p : Point) :
    s.worse (q - p) (b - p) = true ↔ 0 < s.sign * cross b q p := by
  have hsub : ∀ a c : Point, a - c = (⟨a.x - c.x, a.y - c.y⟩ : Slope) := fun _ _ => rfl
  cases s <;> simp only [Side.worse, Slope.gt, Slope.lt, Side.sign, hsub, cross_def,
    decide_eq_true_eq] <;> constructor <;> intro h <;> nlinarith

theorem redundant_iff (s : Side) (c : ℤ) : s.redundant c = true ↔ 0 ≤ s.sign * c := by
  cases s <;> simp [Side.redundant, Side.sign]

theorem scanExtreme_spec {s : Side} {b p : Point} {qs : List Point} (i : ℕ) (hb : b.x < p.x)
    (hbends : Bends s (b :: qs)) (hbefore : ∀ h ∈ qs, Before s p h) :
    ∃ k c rest, scanExtreme s.worse p qs (b - p) (i + 1) i = i + k ∧
      (b :: qs).drop k = c :: rest ∧ c.x < p.x ∧ ∀ h ∈ b :: qs, s.sign * cross c p h ≤ 0 := by
  induction qs generalizing b i with
  | nil => exact ⟨0, b, [], rfl, rfl, hb, by simp [cross_def, mul_comm]⟩
  | cons q qs ih =>
    obtain ⟨hbq, hturn, hrest⟩ := hbends
    rw [scanExtreme]
    by_cases hworse : s.worse (q - p) (b - p) = true
    · refine ⟨0, b, q :: qs, by simp [hworse], rfl, hb, ?_⟩
      have hq : 0 < s.sign * cross b q p := (worse_iff s b q p).mp hworse
      have hflip : cross b p q = -cross b q p := by simp only [cross_def]; ring
      intro h hh
      rcases List.mem_cons.mp hh with rfl | hh
      · simp [cross_def, mul_comm]
      rcases List.mem_cons.mp hh with rfl | hh
      · rw [hflip]
        linarith
      · have hx : b.x < h.x := hbq.trans (hrest.lt_of_mem h hh)
        have hid := congrArg (s.sign * ·) (cross_mul_sub b p q h)
        simp only [hflip] at hid
        by_contra hcon
        nlinarith [mul_pos (not_le.mp hcon) (sub_pos.mpr hbq), mul_pos hq (sub_pos.mpr hx),
          mul_pos (neg_pos.mpr (hturn h hh)) (sub_pos.mpr hb)]
    · have hstep : s.sign * cross b q p ≤ 0 := by
        rw [worse_iff] at hworse
        exact not_lt.mp hworse
      have hqp : q.x < p.x := by
        rcases hbefore q (by simp) with hlt | ⟨heq, hy⟩
        · exact hlt
        · -- a point on the vertical through `p` always ends the scan
          have hexp : s.sign * cross b q p = (q.x - b.x) * (s.sign * p.y - s.sign * q.y) := by
            rw [cross_def, heq]
            ring
          nlinarith [mul_pos (sub_pos.mpr hbq) (sub_pos.mpr hy)]
      obtain ⟨k, c, rest, hk, hdrop, hc, hall⟩ :=
        ih (i + 1) hqp hrest (fun h hh => hbefore h (by simp [hh]))
      refine ⟨k + 1, c, rest, ?_, by simpa using hdrop, hc, ?_⟩
      · simp only [hworse]
        rw [if_neg (by simp), hk]
        omega
      · intro h hh
        rcases List.mem_cons.mp hh with rfl | hh
        · have hcmem : c ∈ q :: qs := List.mem_of_mem_drop (hdrop ▸ List.mem_cons_self)
          rcases List.mem_cons.mp hcmem with rfl | hcmem
          · rwa [cross_rotate h c p]
          · have hqc := hrest.lt_of_mem c hcmem
            have hid := congrArg (s.sign * ·) (cross_mul_sub c p q h)
            have hflip : cross c q h = -cross h q c := by simp only [cross_def]; ring
            simp only [hflip] at hid
            by_contra hcon
            nlinarith [mul_pos (not_le.mp hcon) (sub_pos.mpr hqc),
              mul_pos (neg_pos.mpr (hturn c hcmem)) (sub_pos.mpr hc),
              mul_nonneg (neg_nonneg.mpr (hall q (by simp)))
                (sub_nonneg.mpr (hbq.trans hqc).le)]
        · exact hall h hh

theorem hullEnd_spec (redundant : ℤ → Bool) (l : List Point) (start : ℕ) (p : Point) (n : ℕ)
    (hn : start + 1 ≤ n) :
    start + 1 ≤ hullEnd redundant l start p n ∧ hullEnd redundant l start p n ≤ n ∧
      (∀ m, hullEnd redundant l start p n = start + m + 2 →
        redundant (cross (l.getD (start + m) default) (l.getD (start + m + 1) default) p)
          = false) ∧
      ∀ j, hullEnd redundant l start p n ≤ j + 1 → j + 1 < n →
        redundant (cross (l.getD j default) (l.getD (j + 1) default) p) = true := by
  induction n with
  | zero => omega
  | succ n ih =>
    rw [hullEnd]
    split
    · next hcond =>
      obtain ⟨h1, h2, h3, h4⟩ := ih (by omega)
      refine ⟨h1, by omega, h3, fun j hj hjn => ?_⟩
      by_cases heq : j + 1 = n
      · subst heq
        simpa using hcond.2
      · exact h4 j hj (by omega)
    · next hcond =>
      refine ⟨hn, le_rfl, fun m hm => ?_, fun j hj hjn => by omega⟩
      obtain rfl : n = start + m + 1 := by omega
      by_contra hred
      exact hcond ⟨by omega, by simpa using hred⟩

theorem obeys_of_redundant {s : Side} {L : Line ℚ} {y z p : Point} (hyz : y.x < z.x)
    (hzp : z.x < p.x) (hred : 0 ≤ s.sign * cross y z p) (hy : Obeys s L y) (hp : Obeys s L p) :
    Obeys s L z := by
  have hyp : y.x < p.x := hyz.trans hzp
  have hyz' : (y.x : ℚ) ≤ z.x := by exact_mod_cast hyz.le
  have hzp' : (z.x : ℚ) ≤ p.x := by exact_mod_cast hzp.le
  have hz : Obeys s (lineOf y p) z := by
    rw [obeys_lineOf_iff hyp]
    have hflip : cross y p z = -cross y z p := by simp only [cross_def]; ring
    rw [hflip]
    linarith
  cases s with
  | lower =>
    rw [obeys_lower] at *
    refine hz.trans (Line.le_of_le_ends hyz' hzp' ?_ ?_)
    · rwa [eval_lineOf_left]
    · rwa [eval_lineOf_right hyp]
  | upper =>
    rw [obeys_upper] at *
    refine (Line.le_of_le_ends hyz' hzp' ?_ ?_).trans hz
    · rwa [eval_lineOf_left]
    · rwa [eval_lineOf_right hyp]

theorem prune_spec {s : Side} {l : List Point} {start : ℕ} {p : Point} (hstart : start < l.length)
    (hbends : Bends s (l.drop start)) (hlt : ∀ h ∈ l.drop start, h.x < p.x) :
    ∃ m, 0 < m ∧
      (l.take (hullEnd s.redundant l start p l.length) ++ [p]).drop start =
        (l.drop start).take m ++ [p] ∧
      Bends s ((l.drop start).take m ++ [p]) ∧
      ∀ L, (∀ h ∈ (l.drop start).take m ++ [p], Obeys s L h) → ∀ h ∈ l.drop start, Obeys s L h := by
  obtain ⟨hge, hle, hturn, hred⟩ := hullEnd_spec s.redundant l start p l.length hstart
  set stop := hullEnd s.redundant l start p l.length
  set H := l.drop start with hH
  have hlen : H.length = l.length - start := List.length_drop
  have hget : ∀ j (hj : j < H.length), l.getD (start + j) default = H[j] := by
    intro j hj
    rw [List.getD_eq_getElem _ _ (by omega)]
    simp [hH]
  refine ⟨stop - start, by omega, ?_, ?_, ?_⟩
  · rw [List.drop_append_of_le_length (by simp; omega), List.drop_take]
  · obtain hone | ⟨m, hm⟩ : stop = start + 1 ∨ ∃ m, stop = start + m + 2 := by
      rcases Nat.lt_or_ge (start + 1) stop with hlt | hge'
      · exact .inr ⟨stop - start - 2, by omega⟩
      · exact .inl (by omega)
    · have hfirst : H.take (stop - start) = [H[0]] := by
        rw [show stop - start = 1 by omega, List.take_one, List.head?_eq_getElem?]
        simp [show 0 < H.length by omega]
      rw [hfirst]
      exact ⟨hlt _ (List.getElem_mem _), by simp, trivial⟩
    · have hlast : H.take (stop - start) = H.take m ++ [H[m], H[m + 1]] := by
        rw [show stop - start = m + 1 + 1 by omega, List.take_succ_eq_append_getElem (by omega),
          List.take_succ_eq_append_getElem (by omega), List.append_assoc, List.singleton_append]
      have hnot := hturn m hm
      rw [hget m (by omega), Nat.add_assoc, hget (m + 1) (by omega)] at hnot
      rw [hlast]
      refine Bends.concat (hlast ▸ hbends.take _) (hlt _ (List.getElem_mem _)) ?_
      by_contra hcon
      rw [(redundant_iff s _).mpr (not_lt.mp hcon)] at hnot
      exact absurd hnot (by simp)
  · intro L hL
    -- the cut points follow one another, so their constraints are recovered in order
    have hall : ∀ j (hj : j < H.length), Obeys s L H[j] := by
      intro j
      induction j with
      | zero =>
        intro hj
        refine hL _ (List.mem_append_left _ (List.mem_take_iff_getElem.mpr ⟨0, by omega, rfl⟩))
      | succ j ih =>
        intro hj
        by_cases hcut : j + 1 < stop - start
        · exact hL _ (List.mem_append_left _
            (List.mem_take_iff_getElem.mpr ⟨j + 1, by omega, rfl⟩))
        · have hr := hred (start + j) (by omega) (by omega)
          rw [hget j (by omega), Nat.add_assoc, hget (j + 1) hj] at hr
          exact obeys_of_redundant
            (List.pairwise_iff_getElem.mp hbends.pairwise _ _ (by omega) hj (by omega))
            (hlt _ (List.getElem_mem _))
            ((redundant_iff s _).mp hr) (ih (by omega)) (hL p (by simp))
    intro h hh
    obtain ⟨j, hj, rfl⟩ := List.getElem_of_mem hh
    exact hall j hj

end LearnedIndexFramework.Metric
