import LearnedIndexFramework.Metric.Fit

/-! The two updates of `add_point` keep the invariant of the segmentation: index arithmetic
on the hull vectors against the hulls of `Fit`. -/

namespace LearnedIndexFramework.Metric

open Lib

namespace Hull

def vec (h : Hull) : Side → List Point
  | .lower => h.lower
  | .upper => h.upper

def start (h : Hull) : Side → ℕ
  | .lower => h.lowerStart
  | .upper => h.upperStart

def side (h : Hull) (s : Side) : List Point := (h.vec s).drop (h.start s)

def anchor (h : Hull) : Side → Point
  | .lower => h.rectangle.r1
  | .upper => h.rectangle.r0

def tip (h : Hull) : Side → Point
  | .lower => h.rectangle.r3
  | .upper => h.rectangle.r2

def limit (h : Hull) : Side → Point → Hull
  | .lower => h.limitUpper
  | .upper => h.limitLower

section

variable (h : Hull) (s : Side) (p : Point)

@[simp] theorem limit_vec_self : (h.limit s p).vec s = h.vec s := by cases s <;> rfl

@[simp] theorem limit_vec_flip : (h.limit s p).vec s.flip = (h.vec s.flip).take
    (hullEnd s.flip.redundant (h.vec s.flip) (h.start s.flip) p (h.vec s.flip).length) ++ [p] := by
  cases s <;> rfl

@[simp] theorem limit_start_self : (h.limit s p).start s =
    scanExtreme s.worse p ((h.vec s).drop (h.start s + 1))
      ((h.vec s).getD (h.start s) default - p) (h.start s + 1) (h.start s) := by
  cases s <;> rfl

@[simp] theorem limit_start_flip : (h.limit s p).start s.flip = h.start s.flip := by
  cases s <;> rfl

theorem limit_anchor_self :
    (h.limit s p).anchor s = (h.vec s).getD ((h.limit s p).start s) default := by
  cases s <;> rfl

@[simp] theorem limit_anchor_flip : (h.limit s p).anchor s.flip = h.anchor s.flip := by
  cases s <;> rfl

@[simp] theorem limit_tip_self : (h.limit s p).tip s = p := by cases s <;> rfl

@[simp] theorem limit_tip_flip : (h.limit s p).tip s.flip = h.tip s.flip := by cases s <;> rfl

end

end Hull

theorem scan_start {s : Side} {l : List Point} {start : ℕ} {a p : Point} {qs : List Point}
    (hdrop : l.drop start = a :: qs) (ha : a.x < p.x) (hbends : Bends s (l.drop start))
    (hbefore : ∀ q ∈ l.drop start, Before s p q) :
    ∃ k c rest, scanExtreme s.worse p (l.drop (start + 1)) (l.getD start default - p) (start + 1)
        start = start + k ∧
      (l.drop start).drop k = c :: rest ∧ l.getD (start + k) default = c ∧ c.x < p.x ∧
      ∀ q ∈ l.drop start, s.sign * cross c p q ≤ 0 := by
  have htail : l.drop (start + 1) = qs := by rw [← List.drop_drop, hdrop, List.drop_one]; rfl
  have hhead : l.getD start default = a := by
    rw [List.getD_eq_getElem?_getD, ← Nat.add_zero start, ← List.getElem?_drop, hdrop]
    rfl
  rw [hdrop] at hbends hbefore ⊢
  obtain ⟨k, c, rest, hk, hc, hcp, hall⟩ :=
    scanExtreme_spec start ha hbends fun q hq => hbefore q (by simp [hq])
  refine ⟨k, c, rest, by rw [htail, hhead, hk], hc, ?_, hcp, hall⟩
  rw [List.getD_eq_getElem?_getD, ← List.getElem?_drop, hdrop, ← Nat.add_zero k,
    ← List.getElem?_drop, hc]
  rfl

namespace Hull

variable {F : Set (Line ℚ)} {X : ℤ} {h : Hull} {p : Point}

theorem start_lt_length {s : Side} (hfit : Fit F X h.side h.anchor h.tip) :
    h.start s < (h.vec s).length := by
  obtain ⟨rest, hrest⟩ := hfit.head s
  by_contra hcon
  rw [side, List.drop_eq_nil_of_le (not_lt.mp hcon)] at hrest
  exact absurd hrest (by simp)

theorem limit_fit {s : Side} {cut : Bool} (hfit : Fit F X h.side h.anchor h.tip)
    (hXp : X ≤ p.x) (hown : ∀ q ∈ h.side s.flip, q.x < p.x)
    (hbefore : ∀ q ∈ h.side s, Before s p q) (hanchor : (h.anchor s).x < p.x)
    (hcut : cut = true ↔ ¬ Obeys s.flip (lineOf (h.anchor s) (h.tip s)) p)
    (hkeep : Obeys s.flip (lineOf (h.anchor s.flip) (h.tip s.flip)) p) {h' : Hull}
    (hh' : h' = if cut then h.limit s p else h) :
    Fit (F ∩ {L | Obeys s.flip L p}) p.x h'.side h'.anchor h'.tip ∧
      h'.anchor s.flip = h.anchor s.flip ∧ h'.tip s.flip = h.tip s.flip ∧
      (∀ q ∈ h'.side s, q ∈ h.side s) ∧ ∀ q ∈ h'.side s.flip, q ∈ h.side s.flip ∨ q = p := by
  subst hh'
  split
  · next htaken =>
    obtain ⟨qs, hqs⟩ := hfit.head s
    obtain ⟨us, hus⟩ := hfit.head s.flip
    obtain ⟨k, c, rest, hk, hdrop, hget, hcp, htangent⟩ :=
      scan_start hqs hanchor (hfit.bends s) hbefore
    obtain ⟨m, hm, hprune, hbends, hall⟩ :=
      prune_spec (start_lt_length hfit) (hfit.bends s.flip) hown
    have hself : (h.limit s p).side s = c :: rest := by
      rw [side, limit_vec_self, limit_start_self, hk, ← List.drop_drop]
      exact hdrop
    have hflip : (h.limit s p).side s.flip = (h.side s.flip).take m ++ [p] := by
      rw [side, limit_vec_flip, limit_start_flip]
      exact hprune
    have hle : ∀ q ∈ h.side s, q.x ≤ p.x := by
      intro q hq
      rcases hbefore q hq with hlt | ⟨heq, -⟩
      · exact hlt.le
      · exact heq.le
    refine ⟨hfit.limit hXp hle hown (hcut.mp htaken) hkeep hdrop hcp htangent
      (fun q hq => List.mem_of_mem_take hq) ?_ hbends hall hself hflip ?_ (limit_anchor_flip ..)
      (limit_tip_self ..) (limit_tip_flip ..), limit_anchor_flip .., limit_tip_flip .., ?_, ?_⟩
    · obtain ⟨m, rfl⟩ : ∃ m', m = m' + 1 := ⟨m - 1, by omega⟩
      exact ⟨us.take m, by rw [hus, List.take_succ_cons]⟩
    · rw [limit_anchor_self, limit_start_self, hk, hget]
    · intro q hq
      rw [hself, ← hdrop] at hq
      exact List.mem_of_mem_drop hq
    · intro q hq
      rw [hflip] at hq
      rcases List.mem_append.mp hq with hq | hq
      · exact .inl (List.mem_of_mem_take hq)
      · exact .inr (by simpa using hq)
  · next hskipped =>
    have hline : Obeys s.flip (lineOf (h.anchor s) (h.tip s)) p := by
      by_contra hcon
      exact hskipped (hcut.mpr hcon)
    rw [hfit.inter_eq_self hXp hline]
    exact ⟨hfit.mono hXp, rfl, rfl, fun q hq => hq, fun q hq => .inl hq⟩

theorem lt_anchor_iff (a b p : Point) : (p - a).lt (b - a) = true ↔ cross a b p < 0 := by
  simp only [Slope.lt, decide_eq_true_eq, cross_def]
  change (p.y - a.y) * (b.x - a.x) < (p.x - a.x) * (b.y - a.y) ↔ _
  constructor <;> intro hlt <;> linarith

theorem lt_tip_iff (a b p : Point) : (p - b).lt (b - a) = true ↔ cross a b p < 0 := by
  simp only [Slope.lt, decide_eq_true_eq, cross_def]
  change (p.y - b.y) * (b.x - a.x) < (p.x - b.x) * (b.y - a.y) ↔ _
  constructor <;> intro hlt <;> linarith

theorem gt_anchor_iff (a b p : Point) : (p - a).gt (b - a) = true ↔ 0 < cross a b p := by
  simp only [Slope.gt, decide_eq_true_eq, cross_def]
  change (p.y - a.y) * (b.x - a.x) > (p.x - a.x) * (b.y - a.y) ↔ _
  constructor <;> intro hlt <;> linarith

theorem gt_tip_iff (a b p : Point) : (p - b).gt (b - a) = true ↔ 0 < cross a b p := by
  simp only [Slope.gt, decide_eq_true_eq, cross_def]
  change (p.y - b.y) * (b.x - a.x) > (p.x - b.x) * (b.y - a.y) ↔ _
  constructor <;> intro hlt <;> linarith

theorem outside_iff (hfit : Fit F X h.side h.anchor h.tip) (p1 p2 : Point) :
    h.outside p1 p2 = false ↔ Obeys .upper (lineOf (h.anchor .upper) (h.tip .upper)) p1 ∧
      Obeys .lower (lineOf (h.anchor .lower) (h.tip .lower)) p2 := by
  have hupper := obeys_lineOf_iff (hfit.anchor_lt_tip .upper) .upper p1
  have hlower := obeys_lineOf_iff (hfit.anchor_lt_tip .lower) .lower p2
  rw [hupper, hlower, outside, Bool.or_eq_false_iff, ← Bool.not_eq_true, ← Bool.not_eq_true,
    lt_tip_iff, gt_tip_iff]
  simp [Side.sign, anchor, tip]

theorem two_points_fit {h : Hull} {p1 p2 q1 q2 : Point} (hup : h.side .upper = [p1, q1])
    (hlow : h.side .lower = [p2, q2]) (hr : h.rectangle = ⟨p1, p2, q2, q1⟩) (hp : p1.x = p2.x)
    (hq : q1.x = q2.x) (hpq : p1.x < q1.x) (hpy : p2.y ≤ p1.y) (hqy : q2.y ≤ q1.y) :
    Fit {L | Obeys .upper L p1 ∧ Obeys .lower L p2 ∧ Obeys .upper L q1 ∧ Obeys .lower L q2}
      q1.x h.side h.anchor h.tip := by
  have hpq2 : p2.x < q1.x := hp ▸ hpq
  have hpq1 : p1.x < q2.x := hq ▸ hpq
  have hpy' : (p2.y : ℚ) ≤ p1.y := by exact_mod_cast hpy
  have hqy' : (q2.y : ℚ) ≤ q1.y := by exact_mod_cast hqy
  have hp' : (p1.x : ℚ) = p2.x := by exact_mod_cast hp
  have hq' : (q1.x : ℚ) = q2.x := by exact_mod_cast hq
  constructor
  · intro L
    constructor
    · rintro ⟨h1, h2, h3, h4⟩ s
      cases s with
      | lower => simpa [hlow] using ⟨h2, h4⟩
      | upper => simpa [hup] using ⟨h1, h3⟩
    · intro hall
      have hu := hall .upper
      have hl := hall .lower
      simp only [hup, hlow, List.mem_cons, List.not_mem_nil, or_false, forall_eq_or_imp,
        forall_eq] at hu hl
      exact ⟨hu.1, hl.1, hu.2, hl.2⟩
  · intro s
    cases s with
    | lower => exact ⟨[q2], by rw [hlow, anchor, hr]⟩
    | upper => exact ⟨[q1], by rw [hup, anchor, hr]⟩
  · intro s
    cases s with
    | lower => simpa [hlow, Bends, hp, hq] using (hp ▸ hq ▸ hpq : p2.x < q2.x)
    | upper => simpa [hup, Bends] using hpq
  · intro s
    cases s with
    | lower => simpa [hlow] using ⟨hpq2.le, hq.ge⟩
    | upper => simpa [hup] using hpq.le
  · intro s
    cases s <;> simp only [anchor, tip, hr] <;> assumption
  · intro s
    cases s <;> simp only [tip, hr, le_refl, hq]
  · intro s L hL
    cases s with
    | lower => simpa [tip, hr, Side.flip] using hL.2.2.1
    | upper => simpa [tip, hr, Side.flip] using hL.2.2.2
  · intro s
    cases s with
    | lower =>
      simp only [anchor, tip, hr]
      refine ⟨?_, ?_, ?_, ?_⟩
      · rw [obeys_upper, hp', eval_lineOf_left]
        exact hpy'
      · simp [obeys_lower]
      · rw [obeys_upper, eval_lineOf_right hpq2]
      · rw [obeys_lower, ← hq', eval_lineOf_right hpq2]
        exact hqy'
    | upper =>
      simp only [anchor, tip, hr]
      refine ⟨?_, ?_, ?_, ?_⟩
      · simp [obeys_upper]
      · rw [obeys_lower, ← hp', eval_lineOf_left]
        exact hpy'
      · rw [obeys_upper, hq', eval_lineOf_right hpq1]
        exact hqy'
      · rw [obeys_lower, eval_lineOf_right hpq1]

@[simp] theorem absorb_epsilon (p1 p2 : Point) : (h.absorb p1 p2).epsilon = h.epsilon := by
  simp only [absorb]
  split <;> split <;> rfl

@[simp] theorem absorb_lastX (p1 p2 : Point) : (h.absorb p1 p2).lastX = h.lastX := by
  simp only [absorb]
  split <;> split <;> rfl

@[simp] theorem absorb_pointsInHull (p1 p2 : Point) :
    (h.absorb p1 p2).pointsInHull = h.pointsInHull := by
  simp only [absorb]
  split <;> split <;> rfl

def between (h : Hull) (p1 : Point) : Hull :=
  if (p1 - h.rectangle.r1).lt (h.rectangle.r3 - h.rectangle.r1) then h.limitUpper p1 else h

theorem absorb_eq_between (h : Hull) (p1 p2 : Point) : h.absorb p1 p2 =
    if (p2 - (h.between p1).rectangle.r0).gt (h.rectangle.r2 - h.rectangle.r0) then
      (h.between p1).limitLower p2
    else h.between p1 := rfl

theorem between_fit (hfit : Fit F X h.side h.anchor h.tip) {p1 : Point} (hX : X < p1.x)
    (hkeep : Obeys .upper (lineOf (h.anchor .upper) (h.tip .upper)) p1) :
    Fit (F ∩ {L | Obeys .upper L p1}) p1.x (h.between p1).side (h.between p1).anchor
        (h.between p1).tip ∧
      (h.between p1).anchor .upper = h.anchor .upper ∧ (h.between p1).tip .upper = h.tip .upper ∧
      (∀ q ∈ (h.between p1).side .lower, q ∈ h.side .lower) ∧
      ∀ q ∈ (h.between p1).side .upper, q ∈ h.side .upper ∨ q = p1 := by
  have hlt : ∀ s, ∀ q ∈ h.side s, q.x < p1.x := fun s q hq => (hfit.hull_le s q hq).trans_lt hX
  have hcut : (p1 - h.rectangle.r1).lt (h.rectangle.r3 - h.rectangle.r1) = true ↔
      ¬ Obeys .upper (lineOf (h.anchor .lower) (h.tip .lower)) p1 := by
    rw [lt_anchor_iff, obeys_lineOf_iff (hfit.anchor_lt_tip .lower)]
    simp [Side.sign, anchor, tip]
  exact limit_fit (s := .lower) hfit hX.le (hlt .upper) (fun q hq => .inl (hlt .lower q hq))
    (hlt .lower _ (hfit.anchor_mem .lower)) hcut hkeep rfl

theorem absorb_fit (hfit : Fit F X h.side h.anchor h.tip) {p1 p2 : Point} (hx : p2.x = p1.x)
    (hX : X < p1.x) (hy : p2.y < p1.y) (hin : h.outside p1 p2 = false) :
    Fit (F ∩ {L | Obeys .upper L p1} ∩ {L | Obeys .lower L p2}) p1.x (h.absorb p1 p2).side
      (h.absorb p1 p2).anchor (h.absorb p1 p2).tip := by
  obtain ⟨hkeep1, hkeep2⟩ := (outside_iff hfit p1 p2).mp hin
  have hlt : ∀ s, ∀ q ∈ h.side s, q.x < p1.x := fun s q hq => (hfit.hull_le s q hq).trans_lt hX
  have hXq : (X : ℚ) ≤ p1.x := by exact_mod_cast hX.le
  have hxq : (p2.x : ℚ) = p1.x := by exact_mod_cast hx
  -- some line passes the whole band, so the new line of maximum slope clears its lower end
  obtain ⟨L, hL, hlo, hhi⟩ := (hfit.extremes.exists_band_iff hXq
    (by exact_mod_cast hy.le : (p2.y : ℚ) ≤ p1.y)).mpr
      ⟨obeys_upper.mp hkeep1, by simpa [hxq] using obeys_lower.mp hkeep2⟩
  obtain ⟨hfit', hr0, hr2, hlower, hupper⟩ := between_fit hfit hX hkeep1
  rw [absorb_eq_between]
  generalize h.between p1 = h' at *
  have hcut2 : (p2 - h'.rectangle.r0).gt (h.rectangle.r2 - h.rectangle.r0) = true ↔
      ¬ Obeys .lower (lineOf (h'.anchor .upper) (h'.tip .upper)) p2 := by
    rw [obeys_lineOf_iff (hfit'.anchor_lt_tip .upper)]
    simp only [anchor, tip] at hr0 hr2 ⊢
    rw [hr0, hr2, gt_anchor_iff]
    simp [Side.sign]
  have hkeep : Obeys .lower (lineOf (h'.anchor .lower) (h'.tip .lower)) p2 := by
    rw [obeys_lower, hxq]
    exact hlo.trans (hfit'.extremes.le_hi L ⟨hL, obeys_upper.mpr hhi⟩ _ le_rfl)
  have hbefore : ∀ q ∈ h'.side .upper, Before .upper p2 q := by
    intro q hq
    rcases hupper q hq with hold | rfl
    · exact .inl (hx ▸ hlt .upper q hold)
    · exact .inr ⟨hx.symm, by simpa [Side.sign] using hy⟩
  have hanchor : (h'.anchor .upper).x < p2.x := by
    rw [hr0, hx]
    exact hlt .upper _ (hfit.anchor_mem .upper)
  have hfit'' := (limit_fit (s := .upper) hfit' hx.ge
    (fun q hq => hx ▸ hlt .lower q (hlower q hq)) hbefore hanchor hcut2 hkeep rfl).1
  rw [hx] at hfit''
  exact hfit''

theorem tests_of_degenerate (hfit : Fit F X h.side h.anchor h.tip) {p : Point}
    (h0 : h.rectangle.r0 = h.rectangle.r1) (h2 : h.rectangle.r2 = h.rectangle.r3)
    (hin : h.outside p p = false) :
    (p - h.rectangle.r1).lt (h.rectangle.r3 - h.rectangle.r1) = false ∧
      (p - h.rectangle.r0).gt (h.rectangle.r2 - h.rectangle.r0) = false := by
  obtain ⟨hkeep1, hkeep2⟩ := (outside_iff hfit p p).mp hin
  have hc1 := (obeys_lineOf_iff (hfit.anchor_lt_tip .upper) .upper p).mp hkeep1
  have hc2 := (obeys_lineOf_iff (hfit.anchor_lt_tip .lower) .lower p).mp hkeep2
  simp only [Side.sign, anchor, tip, h0, h2] at hc1 hc2
  constructor
  · rw [← Bool.not_eq_true, lt_anchor_iff]
    omega
  · rw [h0, h2, ← Bool.not_eq_true, gt_anchor_iff]
    omega

theorem absorb_of_degenerate (hfit : Fit F X h.side h.anchor h.tip) {p : Point}
    (h0 : h.rectangle.r0 = h.rectangle.r1) (h2 : h.rectangle.r2 = h.rectangle.r3)
    (hin : h.outside p p = false) (hX : X ≤ p.x) :
    h.absorb p p = h ∧ F ∩ {L | Obeys .upper L p} ∩ {L | Obeys .lower L p} = F := by
  obtain ⟨hkeep1, hkeep2⟩ := (outside_iff hfit p p).mp hin
  obtain ⟨hlt, hgt⟩ := tests_of_degenerate hfit h0 h2 hin
  have hsame : lineOf (h.anchor .upper) (h.tip .upper) =
      lineOf (h.anchor .lower) (h.tip .lower) := by
    simp [anchor, tip, h0, h2]
  constructor
  · simp only [absorb, hlt, hgt, Bool.false_eq_true, if_false]
  · have hupper : F ∩ {L | Obeys .upper L p} = F :=
      hfit.inter_eq_self (s := .lower) hX (hsame ▸ hkeep1)
    have hlower : F ∩ {L | Obeys .lower L p} = F :=
      hfit.inter_eq_self (s := .upper) hX (hsame ▸ hkeep2)
    rw [hupper, hlower]

end Hull

end LearnedIndexFramework.Metric
