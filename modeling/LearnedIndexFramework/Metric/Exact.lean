import LearnedIndexFramework.Metric.Update

/-! Acceptance by `add_point` is exact: as long as points are accepted, the next one is
accepted if and only if some line passes through all error bands. -/

namespace LearnedIndexFramework.Metric

open Lib

def family (lim : Limits) (epsilon : ℤ) (pts : List (ℤ × ℤ)) : Set (Line ℚ) :=
  {L | ∀ p ∈ pts, (bandLo lim epsilon p.2 : ℚ) ≤ L.eval p.1 ∧
    L.eval p.1 ≤ bandHi lim epsilon p.2}

theorem mem_family_append {lim : Limits} {epsilon : ℤ} {pts : List (ℤ × ℤ)} {x y : ℤ}
    {L : Line ℚ} : L ∈ family lim epsilon (pts ++ [(x, y)]) ↔ L ∈ family lim epsilon pts ∧
      (bandLo lim epsilon y : ℚ) ≤ L.eval x ∧ L.eval x ≤ bandHi lim epsilon y := by
  constructor
  · intro h
    exact ⟨fun p hp => h p (by simp [hp]), h (x, y) (by simp)⟩
  · rintro ⟨h, hxy⟩ p hp
    rcases List.mem_append.mp hp with hp | hp
    · exact h p hp
    · obtain rfl : p = (x, y) := by simpa using hp
      exact hxy

section Band

variable {lim : Limits} {epsilon y : ℤ}

theorem bandLo_eq_max : bandLo lim epsilon y = max lim.lowest (y - epsilon) := by
  unfold bandLo
  split <;> omega

theorem bandHi_eq_min : bandHi lim epsilon y = min lim.max (y + epsilon) := by
  unfold bandHi
  split <;> omega

theorem bandLo_le (h0 : 0 ≤ epsilon) (hy : lim.Mem y) : bandLo lim epsilon y ≤ y := by
  obtain ⟨h1, h2⟩ := hy
  unfold bandLo
  split <;> omega

theorem le_bandHi (h0 : 0 ≤ epsilon) (hy : lim.Mem y) : y ≤ bandHi lim epsilon y := by
  obtain ⟨h1, h2⟩ := hy
  unfold bandHi
  split <;> omega

theorem bandLo_lt_bandHi (h0 : 0 < epsilon) (hy : lim.Mem y) :
    bandLo lim epsilon y < bandHi lim epsilon y := by
  obtain ⟨h1, h2⟩ := hy
  have := lim.lowest_lt_max
  unfold bandLo bandHi
  split <;> split <;> omega

theorem bandLo_eq_bandHi (hy : lim.Mem y) : bandLo lim 0 y = bandHi lim 0 y := by
  obtain ⟨h1, h2⟩ := hy
  unfold bandLo bandHi
  split <;> split <;> omega

end Band

structure Holds (lim : Limits) (h : Hull) (pts : List (ℤ × ℤ)) : Prop where
  count : h.pointsInHull = pts.length
  last_mem : pts ≠ [] → ∃ p ∈ pts, h.lastX = p.1
  first : ∀ p, pts = [p] →
    h.upper = [⟨p.1, bandHi lim h.epsilon p.2⟩] ∧ h.lower = [⟨p.1, bandLo lim h.epsilon p.2⟩] ∧
      h.upperStart = 0 ∧ h.lowerStart = 0 ∧
      h.rectangle.r0 = ⟨p.1, bandHi lim h.epsilon p.2⟩ ∧
      h.rectangle.r1 = ⟨p.1, bandLo lim h.epsilon p.2⟩
  fit : 2 ≤ pts.length → Fit (family lim h.epsilon pts) h.lastX h.side h.anchor h.tip
  degenerate : 2 ≤ pts.length → h.epsilon = 0 →
    h.rectangle.r0 = h.rectangle.r1 ∧ h.rectangle.r2 = h.rectangle.r3

theorem holds_nil {lim : Limits} {h : Hull} (h0 : h.pointsInHull = 0) : Holds lim h [] :=
  ⟨h0, by simp, by simp, by simp, by simp⟩

section Step

variable {lim : Limits} {h : Hull} {pts : List (ℤ × ℤ)} {x y : ℤ}

theorem family_append_eq :
    family lim h.epsilon (pts ++ [(x, y)]) = family lim h.epsilon pts ∩
      {L | Obeys .upper L ⟨x, bandHi lim h.epsilon y⟩} ∩
      {L | Obeys .lower L ⟨x, bandLo lim h.epsilon y⟩} := by
  ext L
  rw [mem_family_append]
  simp only [Set.mem_inter_iff]
  change _ ↔ (_ ∧ Obeys .upper L _) ∧ Obeys .lower L _
  rw [obeys_upper, obeys_lower]
  tauto

theorem family_singleton_nonempty (h0 : 0 ≤ h.epsilon) (hy : lim.Mem y) :
    (family lim h.epsilon [(x, y)]).Nonempty := by
  refine ⟨⟨0, y⟩, fun p hp => ?_⟩
  obtain rfl : p = (x, y) := by simpa using hp
  have hlo : (bandLo lim h.epsilon y : ℚ) ≤ y := by exact_mod_cast bandLo_le h0 hy
  have hhi : (y : ℚ) ≤ bandHi lim h.epsilon y := by exact_mod_cast le_bandHi h0 hy
  constructor
  · simpa [Line.eval] using hlo
  · simpa [Line.eval] using hhi

@[simp] theorem addPoint_epsilon : (h.addPoint lim x y).2.epsilon = h.epsilon := by
  simp only [Hull.addPoint]
  split
  · rfl
  split
  · rfl
  split
  · rfl
  · exact Hull.absorb_epsilon _ _

theorem addPoint_rejected_eq (hrej : (h.addPoint lim x y).1 = false) :
    (h.addPoint lim x y).2 = { h with lastX := x, pointsInHull := 0 } := by
  simp only [Hull.addPoint] at hrej ⊢
  split at hrej
  · cases hrej
  split at hrej
  · cases hrej
  split at hrej
  · next hne₀ hne₁ hout => simp [hne₀, hne₁, hout]
  · cases hrej

theorem addPoint_first (hh : Holds lim h []) :
    (h.addPoint lim x y).1 = true ∧ Holds lim (h.addPoint lim x y).2 [(x, y)] := by
  have h0 : h.pointsInHull = 0 := hh.count
  have heq : h.addPoint lim x y = (true, { h with
      lastX := x
      firstX := x
      rectangle := { h.rectangle with
        r0 := ⟨x, bandHi lim h.epsilon y⟩, r1 := ⟨x, bandLo lim h.epsilon y⟩ }
      upper := [⟨x, bandHi lim h.epsilon y⟩]
      lower := [⟨x, bandLo lim h.epsilon y⟩]
      upperStart := 0
      lowerStart := 0
      pointsInHull := 1 }) := by simp [Hull.addPoint, h0]
  rw [heq]
  refine ⟨rfl, rfl, by simp, ?_, by simp, by simp⟩
  rintro p hp
  obtain rfl : (x, y) = p := by simpa using hp
  simp

theorem addPoint_second {x₀ y₀ : ℤ} (hh : Holds lim h [(x₀, y₀)]) (heps : 0 ≤ h.epsilon)
    (hx : x₀ < x) (hy₀ : lim.Mem y₀) (hy : lim.Mem y) :
    (h.addPoint lim x y).1 = true ∧ Holds lim (h.addPoint lim x y).2 [(x₀, y₀), (x, y)] := by
  have h1 : h.pointsInHull = 1 := hh.count
  obtain ⟨hup, hlow, hus, hls, hr0, hr1⟩ := hh.first _ rfl
  obtain ⟨h', heq, heps', hlast, hcount, hup', hlow', hr⟩ : ∃ h', h.addPoint lim x y = (true, h') ∧
      h'.epsilon = h.epsilon ∧ h'.lastX = x ∧ h'.pointsInHull = 2 ∧
      h'.side .upper = [⟨x₀, bandHi lim h.epsilon y₀⟩, ⟨x, bandHi lim h.epsilon y⟩] ∧
      h'.side .lower = [⟨x₀, bandLo lim h.epsilon y₀⟩, ⟨x, bandLo lim h.epsilon y⟩] ∧
      h'.rectangle = ⟨⟨x₀, bandHi lim h.epsilon y₀⟩, ⟨x₀, bandLo lim h.epsilon y₀⟩,
        ⟨x, bandLo lim h.epsilon y⟩, ⟨x, bandHi lim h.epsilon y⟩⟩ := by
    refine ⟨{ h with
      lastX := x
      rectangle := { h.rectangle with
        r2 := ⟨x, bandLo lim h.epsilon y⟩, r3 := ⟨x, bandHi lim h.epsilon y⟩ }
      upper := h.upper ++ [⟨x, bandHi lim h.epsilon y⟩]
      lower := h.lower ++ [⟨x, bandLo lim h.epsilon y⟩]
      pointsInHull := 2 }, by simp [Hull.addPoint, h1], rfl, rfl, rfl, ?_, ?_, ?_⟩
    · simp [Hull.side, Hull.vec, Hull.start, hup, hus]
    · simp [Hull.side, Hull.vec, Hull.start, hlow, hls]
    · simp [hr0, hr1]
  rw [heq]
  refine ⟨rfl, hcount, fun _ => ⟨(x, y), by simp, hlast⟩, by simp, fun _ => ?_, fun _ he => ?_⟩
  · have hfit := Hull.two_points_fit hup' hlow' hr rfl rfl hx
      ((bandLo_le heps hy₀).trans (le_bandHi heps hy₀))
      ((bandLo_le heps hy).trans (le_bandHi heps hy))
    rw [heps', hlast]
    convert hfit using 1
    ext L
    change (∀ p ∈ [(x₀, y₀), (x, y)], _) ↔ Obeys .upper L _ ∧ _
    simp only [List.mem_cons, List.not_mem_nil, or_false, forall_eq_or_imp, forall_eq, obeys_upper,
      obeys_lower]
    tauto
  · have he0 : h.epsilon = 0 := heps' ▸ he
    simp [hr, he0, bandLo_eq_bandHi hy₀, bandLo_eq_bandHi hy]

theorem addPoint_of_two_le (hcount : 2 ≤ h.pointsInHull) : h.addPoint lim x y =
    if h.outside ⟨x, bandHi lim h.epsilon y⟩ ⟨x, bandLo lim h.epsilon y⟩ then
      (false, { h with lastX := x, pointsInHull := 0 })
    else
      (true, { ({ h with lastX := x } : Hull).absorb ⟨x, bandHi lim h.epsilon y⟩
          ⟨x, bandLo lim h.epsilon y⟩ with
        pointsInHull := h.pointsInHull + 1 }) := by
  have hsame := Hull.absorb_pointsInHull (h := { h with lastX := x }) ⟨x, bandHi lim h.epsilon y⟩
    ⟨x, bandLo lim h.epsilon y⟩
  simp only [Hull.addPoint, show h.pointsInHull ≠ 0 by omega, show h.pointsInHull ≠ 1 by omega,
    if_false, hsame]
  rfl

theorem outside_eq_false_iff (hfit : Fit (family lim h.epsilon pts) h.lastX h.side h.anchor h.tip)
    (heps : 0 ≤ h.epsilon) (hx : h.lastX < x) (hy : lim.Mem y) :
    h.outside ⟨x, bandHi lim h.epsilon y⟩ ⟨x, bandLo lim h.epsilon y⟩ = false ↔
      (family lim h.epsilon (pts ++ [(x, y)])).Nonempty := by
  have hXx : (h.lastX : ℚ) ≤ x := by exact_mod_cast hx.le
  have hband : (bandLo lim h.epsilon y : ℚ) ≤ bandHi lim h.epsilon y := by
    exact_mod_cast (bandLo_le heps hy).trans (le_bandHi heps hy)
  rw [Hull.outside_iff hfit, obeys_upper, obeys_lower,
    ← hfit.extremes.exists_band_iff hXx hband, family_append_eq]
  constructor
  · rintro ⟨L, hL, hlo, hhi⟩
    exact ⟨L, ⟨hL, obeys_upper.mpr hhi⟩, obeys_lower.mpr hlo⟩
  · rintro ⟨L, ⟨hL, hhi⟩, hlo⟩
    have hlo' := obeys_lower.mp hlo
    have hhi' := obeys_upper.mp hhi
    exact ⟨L, hL, hlo', hhi'⟩

theorem Holds.absorb_of_zero (hh : Holds lim h pts) (hlen : 2 ≤ pts.length) (he : h.epsilon = 0)
    (hx : h.lastX < x) (hy : lim.Mem y)
    (hout : h.outside ⟨x, bandHi lim h.epsilon y⟩ ⟨x, bandLo lim h.epsilon y⟩ = false) :
    ({ h with lastX := x } : Hull).absorb ⟨x, bandHi lim h.epsilon y⟩ ⟨x, bandLo lim h.epsilon y⟩ =
        { h with lastX := x } ∧
      family lim h.epsilon (pts ++ [(x, y)]) = family lim h.epsilon pts := by
  obtain ⟨h02, h23⟩ := hh.degenerate hlen he
  have hband : bandLo lim h.epsilon y = bandHi lim h.epsilon y := he ▸ bandLo_eq_bandHi hy
  rw [hband] at hout
  rw [family_append_eq, hband]
  generalize hp : (⟨x, bandHi lim h.epsilon y⟩ : Point) = p at hout ⊢
  have hle : h.lastX ≤ p.x := hp ▸ hx.le
  exact Hull.absorb_of_degenerate (h := { h with lastX := x }) (hh.fit hlen) h02 h23 hout hle

theorem Holds.fit_absorb (hh : Holds lim h pts) (hlen : 2 ≤ pts.length) (heps : 0 ≤ h.epsilon)
    (hx : h.lastX < x) (hy : lim.Mem y) {p1 p2 : Point} (hp1 : p1 = ⟨x, bandHi lim h.epsilon y⟩)
    (hp2 : p2 = ⟨x, bandLo lim h.epsilon y⟩) (hout : h.outside p1 p2 = false) {g : Hull}
    (hg : g = ({ h with lastX := x } : Hull).absorb p1 p2) :
    Fit (family lim h.epsilon (pts ++ [(x, y)])) x g.side g.anchor g.tip := by
  have hfit := hh.fit hlen
  have hx1 : p1.x = x := congrArg Point.x hp1
  have hx2 : p2.x = x := congrArg Point.x hp2
  rcases heps.eq_or_lt with he | he
  · obtain ⟨hsame, hfam⟩ := hh.absorb_of_zero hlen he.symm hx hy (hp1 ▸ hp2 ▸ hout)
    rw [hg, hp1, hp2, hsame, hfam]
    exact hfit.mono hx.le
  · have hlt : p2.y < p1.y := by
      rw [hp1, hp2]
      exact bandLo_lt_bandHi he hy
    have hnext := Hull.absorb_fit (h := { h with lastX := x }) hfit (hx2.trans hx1.symm)
      (hx1 ▸ hx) hlt hout
    rw [hg, family_append_eq, ← hp1, ← hp2]
    rwa [hx1] at hnext

theorem addPoint_next (hh : Holds lim h pts) (hlen : 2 ≤ pts.length) (heps : 0 ≤ h.epsilon)
    (hx : h.lastX < x) (hy : lim.Mem y) :
    ((h.addPoint lim x y).1 = true ↔ (family lim h.epsilon (pts ++ [(x, y)])).Nonempty) ∧
      ((h.addPoint lim x y).1 = true → Holds lim (h.addPoint lim x y).2 (pts ++ [(x, y)])) := by
  have hcount := hh.count
  rw [addPoint_of_two_le (hcount ▸ hlen), ← outside_eq_false_iff (hh.fit hlen) heps hx hy]
  cases hout : h.outside ⟨x, bandHi lim h.epsilon y⟩ ⟨x, bandLo lim h.epsilon y⟩ with
  | true => simp
  | false =>
    have hfit := hh.fit_absorb hlen heps hx hy rfl rfl hout rfl
    have hzero := fun he => hh.absorb_of_zero hlen he hx hy hout
    have hepsilon := Hull.absorb_epsilon (h := { h with lastX := x }) ⟨x, bandHi lim h.epsilon y⟩
      ⟨x, bandLo lim h.epsilon y⟩
    have hlast := Hull.absorb_lastX (h := { h with lastX := x }) ⟨x, bandHi lim h.epsilon y⟩
      ⟨x, bandLo lim h.epsilon y⟩
    generalize ({ h with lastX := x } : Hull).absorb ⟨x, bandHi lim h.epsilon y⟩
      ⟨x, bandLo lim h.epsilon y⟩ = g at hfit hzero hepsilon hlast
    refine ⟨by simp, fun _ => ?_⟩
    refine ⟨by simp [hcount], fun _ => ⟨(x, y), by simp, hlast⟩, ?_, fun _ => ?_, fun _ he => ?_⟩
    · intro p hp
      have := congrArg List.length hp
      simp only [List.length_append, List.length_singleton] at this
      omega
    · simp only [Bool.false_eq_true, if_false, hepsilon, hlast]
      exact hfit
    · simp only [Bool.false_eq_true, if_false, hepsilon] at he
      simp only [Bool.false_eq_true, if_false, (hzero he).1]
      exact hh.degenerate hlen he

theorem Holds.addPoint (hh : Holds lim h pts) (heps : 0 ≤ h.epsilon) (hlt : ∀ p ∈ pts, p.1 < x)
    (hmem : ∀ p ∈ pts, lim.Mem p.2) (hy : lim.Mem y) :
    ((h.addPoint lim x y).1 = true ↔ (family lim h.epsilon (pts ++ [(x, y)])).Nonempty) ∧
      ((h.addPoint lim x y).1 = true → Holds lim (h.addPoint lim x y).2 (pts ++ [(x, y)])) := by
  match pts, hh, hlt, hmem with
  | [], hh, _, _ =>
    obtain ⟨htrue, hholds⟩ := addPoint_first (x := x) (y := y) hh
    exact ⟨by simpa [htrue] using family_singleton_nonempty heps hy, fun _ => hholds⟩
  | [(x₀, y₀)], hh, hlt, hmem =>
    obtain ⟨htrue, hholds⟩ := addPoint_second hh heps (hlt (x₀, y₀) (by simp))
      (hmem (x₀, y₀) (by simp)) hy
    have hfit := hholds.fit (by simp)
    rw [addPoint_epsilon] at hfit
    exact ⟨by simpa [htrue] using ⟨_, hfit.line_mem .lower⟩, fun _ => hholds⟩
  | p :: q :: pts, hh, hlt, _ =>
    obtain ⟨r, hr, hlast⟩ := hh.last_mem (by simp)
    exact addPoint_next hh (by simp) heps (hlast ▸ hlt r hr) hy

theorem Holds.not_unordered (hh : Holds lim h pts) (hlt : ∀ p ∈ pts, p.1 < x) :
    ¬ (h.pointsInHull > 0 ∧ x ≤ h.lastX) := by
  rintro ⟨hpos, hle⟩
  have hne : pts ≠ [] := by
    rintro rfl
    simp [hh.count] at hpos
  obtain ⟨r, hr, hlast⟩ := hh.last_mem hne
  have := hlt r hr
  omega

end Step

def acceptAll {σ : Type} (add : σ → ℤ → ℤ → Except String (Bool × σ)) :
    σ → List (ℤ × ℤ) → Except String (Option σ)
  | s, [] => .ok (some s)
  | s, (x, y) :: pts => do
    let (accepted, s) ← add s x y
    if accepted then acceptAll add s pts else return none

section Copies

variable {σ : Type} {lim : Limits}

def DrivesHull (lim : Limits) (hull : σ → Hull)
    (add : σ → ℤ → ℤ → Except String (Bool × σ)) : Prop :=
  ∀ s x y, ¬ ((hull s).pointsInHull > 0 ∧ x ≤ (hull s).lastX) →
    ∃ s', add s x y = .ok (((hull s).addPoint lim x y).1, s') ∧
      hull s' = ((hull s).addPoint lim x y).2

theorem PgmMetric.drivesHull (lim : Limits) :
    DrivesHull lim OptimalPiecewiseLinearModel.toHull
      (OptimalPiecewiseLinearModel.addPoint lim) := by
  intro s x y hord
  exact ⟨_, by rw [OptimalPiecewiseLinearModel.addPoint, if_neg hord], rfl⟩

theorem Generator.drivesHull (lim : Limits) : DrivesHull lim id (Generator.addPoint lim) := by
  intro s x y hord
  exact ⟨_, if_neg hord, rfl⟩

variable {hull : σ → Hull} {add : σ → ℤ → ℤ → Except String (Bool × σ)}

theorem DrivesHull.acceptAll_keeps (hadd : DrivesHull lim hull add)
    {P : Hull → List (ℤ × ℤ) → Prop}
    (hkeep : ∀ h cur x y, Holds lim h cur → P h cur → (h.addPoint lim x y).1 = true →
      P (h.addPoint lim x y).2 (cur ++ [(x, y)]))
    {cur pts : List (ℤ × ℤ)} {s s' : σ} (hh : Holds lim (hull s) cur) (hP : P (hull s) cur)
    (heps : 0 ≤ (hull s).epsilon)
    (hsorted : (cur ++ pts).Pairwise (fun p q => p.1 < q.1)) (hmem : ∀ p ∈ cur ++ pts, lim.Mem p.2)
    (hacc : Metric.acceptAll add s pts = .ok (some s')) :
    Holds lim (hull s') (cur ++ pts) ∧ (hull s').epsilon = (hull s).epsilon ∧
      P (hull s') (cur ++ pts) := by
  induction pts generalizing cur s with
  | nil =>
    obtain rfl : s = s' := by simpa [Metric.acceptAll] using hacc
    rw [List.append_nil]
    exact ⟨hh, rfl, hP⟩
  | cons p pts ih =>
    obtain ⟨x, y⟩ := p
    have hlt : ∀ p ∈ cur, p.1 < x := fun p hp =>
      (List.pairwise_append.mp hsorted).2.2 p hp (x, y) (by simp)
    obtain ⟨t, ht, hhull⟩ := hadd s x y (hh.not_unordered hlt)
    have hstep := (hh.addPoint heps hlt (fun p hp => hmem p (by simp [hp]))
      (hmem (x, y) (by simp))).2
    simp only [Metric.acceptAll, ht, bind, Except.bind] at hacc
    split at hacc
    · next haccepted =>
      have hholds := hstep haccepted
      have hP' := hkeep _ _ x y hh hP haccepted
      rw [← hhull] at hholds hP'
      have := ih hholds hP' (by rw [hhull, addPoint_epsilon]; exact heps) (by simpa using hsorted)
        (by simpa using hmem) hacc
      rw [hhull, addPoint_epsilon] at this
      simpa using this
    · simp [pure, Except.pure] at hacc

theorem DrivesHull.acceptAll (hadd : DrivesHull lim hull add) {cur pts : List (ℤ × ℤ)} {s s' : σ}
    (hh : Holds lim (hull s) cur) (heps : 0 ≤ (hull s).epsilon)
    (hsorted : (cur ++ pts).Pairwise (fun p q => p.1 < q.1)) (hmem : ∀ p ∈ cur ++ pts, lim.Mem p.2)
    (hacc : Metric.acceptAll add s pts = .ok (some s')) :
    Holds lim (hull s') (cur ++ pts) ∧ (hull s').epsilon = (hull s).epsilon := by
  obtain ⟨hh', heps', -⟩ := hadd.acceptAll_keeps (P := fun _ _ => True)
    (fun _ _ _ _ _ _ _ => trivial) hh trivial heps hsorted hmem hacc
  exact ⟨hh', heps'⟩

theorem DrivesHull.exact (hadd : DrivesHull lim hull add) {pts : List (ℤ × ℤ)} {x y : ℤ} {s s' : σ}
    (h0 : (hull s).pointsInHull = 0) (heps : 0 ≤ (hull s).epsilon)
    (hsorted : (pts ++ [(x, y)]).Pairwise (fun p q => p.1 < q.1))
    (hmem : ∀ p ∈ pts ++ [(x, y)], lim.Mem p.2)
    (hacc : Metric.acceptAll add s pts = .ok (some s')) :
    ∃ accepted s'', add s' x y = .ok (accepted, s'') ∧
      (accepted = true ↔ (family lim (hull s).epsilon (pts ++ [(x, y)])).Nonempty) := by
  have hsplit := List.pairwise_append.mp hsorted
  have hlt : ∀ p ∈ pts, p.1 < x := fun p hp => hsplit.2.2 p hp (x, y) (by simp)
  obtain ⟨hh, heps'⟩ := hadd.acceptAll (holds_nil h0) heps (by simpa using hsplit.1)
    (fun p hp => hmem p (by simp_all)) hacc
  rw [List.nil_append] at hh
  obtain ⟨t, ht, -⟩ := hadd s' x y (hh.not_unordered hlt)
  refine ⟨_, t, ht, ?_⟩
  rw [← heps']
  exact (hh.addPoint (by rw [heps']; exact heps) hlt (fun p hp => hmem p (by simp [hp]))
    (hmem (x, y) (by simp))).1

end Copies

/-- Some line passes through every interval `[y - epsilon, y + epsilon]`, clamped to the range
of `Y`, of the given points. -/
def FitsBands (lim : Limits) (epsilon : ℤ) (pts : List (ℤ × ℤ)) : Prop :=
  ∃ a b : ℚ, ∀ p ∈ pts, ((max lim.lowest (p.2 - epsilon) : ℤ) : ℚ) ≤ a * p.1 + b ∧
    a * p.1 + b ≤ (min lim.max (p.2 + epsilon) : ℤ)

theorem fitsBands_iff {lim : Limits} {epsilon : ℤ} {pts : List (ℤ × ℤ)} :
    FitsBands lim epsilon pts ↔ (family lim epsilon pts).Nonempty := by
  constructor
  · rintro ⟨a, b, hab⟩
    exact ⟨⟨a, b⟩, fun p hp => by
      simpa only [Line.eval, bandLo_eq_max, bandHi_eq_min] using hab p hp⟩
  · rintro ⟨L, hL⟩
    refine ⟨L.slope, L.icept, fun p hp => ?_⟩
    have hp' := hL p hp
    rw [bandLo_eq_max, bandHi_eq_min] at hp'
    exact hp'

/-- Both copies of `add_point` are exact on points with increasing abscissae: after a reset
and as long as every call has returned true, the next call returns true if and only if some
line passes through all the bands, its own included. -/
theorem addPoint_exact (lim : Limits) (pts : List (ℤ × ℤ)) (x y : ℤ)
    (hsorted : (pts ++ [(x, y)]).Pairwise (fun p q => p.1 < q.1))
    (hmem : ∀ p ∈ pts ++ [(x, y)], lim.Mem p.2) :
    (∀ m m' : PgmMetric.OptimalPiecewiseLinearModel, 0 ≤ m.epsilon →
      acceptAll (PgmMetric.OptimalPiecewiseLinearModel.addPoint lim) m.reset pts = .ok (some m') →
      ∃ accepted m'', m'.addPoint lim x y = .ok (accepted, m'') ∧
        (accepted = true ↔ FitsBands lim m.epsilon (pts ++ [(x, y)]))) ∧
    (∀ h h' : Hull, 0 ≤ h.epsilon →
      acceptAll (Generator.addPoint lim) h.reset pts = .ok (some h') →
      ∃ accepted h'', Generator.addPoint lim h' x y = .ok (accepted, h'') ∧
        (accepted = true ↔ FitsBands lim h.epsilon (pts ++ [(x, y)]))) := by
  simp only [fitsBands_iff]
  constructor
  · intro m m' heps hacc
    exact (PgmMetric.drivesHull lim).exact (s := m.reset) rfl heps hsorted hmem hacc
  · intro h h' heps hacc
    exact (Generator.drivesHull lim).exact (s := h.reset) rfl heps hsorted hmem hacc

theorem addPoint_exact_rejects :
    ∃ m' m'', acceptAll (PgmMetric.OptimalPiecewiseLinearModel.addPoint .uint64)
        (PgmMetric.OptimalPiecewiseLinearModel.reset { epsilon := 1 })
        [(0, 0), (10, 1), (20, 2)] = .ok (some m') ∧
      m'.addPoint .uint64 30 9 = .ok (false, m'') ∧
      ¬ FitsBands .uint64 1 [(0, 0), (10, 1), (20, 2), (30, 9)] := by
  refine ⟨_, _, rfl, rfl, ?_⟩
  obtain ⟨accepted, m'', heq, hiff⟩ := (addPoint_exact .uint64 [(0, 0), (10, 1), (20, 2)] 30 9
    (by decide) (by simp [Limits.Mem, Limits.uint64])).1 { epsilon := 1 } _ (by decide) rfl
  have hfalse : accepted = false := (congrArg Prod.fst (Except.ok.inj heq)).symm
  rw [hfalse] at hiff
  simpa using hiff

end LearnedIndexFramework.Metric
