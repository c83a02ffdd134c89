import LearnedIndexFramework.Metric.Duplicates
import LearnedIndexFramework.Metric.Segment

/-! The tangent scans of `add_point` with every access of a hull vector checked.  No access fails,
and the scan that breaks at the first worse slope finds the extreme one over all band ends of the
segment, also over those that are in the hull no more or never were. -/

namespace LearnedIndexFramework.Metric

open Lib

structure Scan where
  hull : List Point
  p : Point
  index : ℕ
  deriving DecidableEq

namespace Indexed

def get (hull : List Point) (i : ℕ) : Except String Point :=
  match hull[i]? with
  | some q => .ok q
  | none => .error "index out of range"

/-- `hull.resize(n)`, which fills up a vector that is too short. -/
def resize (hull : List Point) (n : ℕ) : List Point :=
  hull.take n ++ List.replicate (n - hull.length) default

def scanExtreme (worse : Slope → Slope → Bool) (hull : List Point) (p : Point) :
    List ℕ → Slope → ℕ → Except String ℕ
  | [], _, bestI => .ok bestI
  | i :: is, best, bestI => do
    let q ← get hull i
    let val := q - p
    if worse val best then return bestI else scanExtreme worse hull p is val i

def findExtreme (worse : Slope → Slope → Bool) (hull : List Point) (start : ℕ) (p : Point) :
    Except String Scan := do
  let first ← get hull start
  let index ← scanExtreme worse hull p
    (List.range' (start + 1) (hull.length - (start + 1))) (first - p) start
  return { hull, p, index }

def hullEnd (redundant : ℤ → Bool) (hull : List Point) (start : ℕ) (p : Point) :
    ℕ → Except String ℕ
  | 0 => .ok 0
  | n + 1 =>
    if start + 2 ≤ n + 1 then do
      let a ← get hull (n + 1 - 2)
      let b ← get hull (n + 1 - 1)
      if redundant (cross a b p) then hullEnd redundant hull start p n else return n + 1
    else .ok (n + 1)

def updateHull (redundant : ℤ → Bool) (hull : List Point) (start : ℕ) (p : Point) :
    Except String (List Point) := do
  let stop ← hullEnd redundant hull start p hull.length
  return resize hull stop ++ [p]

def limitUpper (h : Hull) (p1 : Point) : Except String (Hull × Scan) := do
  let min ← findExtreme Slope.gt h.lower h.lowerStart p1
  let r1 ← get h.lower min.index
  let upper ← updateHull (fun c => c ≤ 0) h.upper h.upperStart p1
  return ({ h with
    rectangle := { h.rectangle with r1, r3 := p1 }
    lowerStart := min.index
    upper }, min)

def limitLower (h : Hull) (p2 : Point) : Except String (Hull × Scan) := do
  let max ← findExtreme Slope.lt h.upper h.upperStart p2
  let r0 ← get h.upper max.index
  let lower ← updateHull (fun c => c ≥ 0) h.lower h.lowerStart p2
  return ({ h with
    rectangle := { h.rectangle with r0, r2 := p2 }
    upperStart := max.index
    lower }, max)

def branch (test : Bool) (update : Except String (Hull × Scan)) (h : Hull) :
    Except String (Hull × Option Scan) := do
  if test then
    let (h, scan) ← update
    return (h, some scan)
  else return (h, none)

def absorb (h : Hull) (p1 p2 : Point) : Except String (Hull × Option Scan × Option Scan) := do
  let slope1 := h.rectangle.r2 - h.rectangle.r0
  let slope2 := h.rectangle.r3 - h.rectangle.r1
  let (h, first) ← branch ((p1 - h.rectangle.r1).lt slope2) (limitUpper h p1) h
  let (h, second) ← branch ((p2 - h.rectangle.r0).gt slope1) (limitLower h p2) h
  return (h, first, second)

def addPoint (lim : Limits) (h : Hull) (x y : ℤ) :
    Except String ((Bool × Hull) × Option Scan × Option Scan) :=
  let h := { h with lastX := x }
  let p1 : Point := ⟨x, bandHi lim h.epsilon y⟩
  let p2 : Point := ⟨x, bandLo lim h.epsilon y⟩
  if h.pointsInHull = 0 ∨ h.pointsInHull = 1 then .ok (h.addPoint lim x y, none, none)
  else if h.outside p1 p2 then .ok ((false, { h with pointsInHull := 0 }), none, none)
  else do
    let (h, first, second) ← absorb h p1 p2
    return ((true, { h with pointsInHull := h.pointsInHull + 1 }), first, second)

end Indexed

namespace PgmMetric

/-- `add_point` with its hull accesses checked, and the scans of its two branches. -/
def Indexed.addPoint (lim : Limits) (m : OptimalPiecewiseLinearModel) (x y : ℤ) :
    Except String ((Bool × OptimalPiecewiseLinearModel) × Option Scan × Option Scan) :=
  if m.pointsInHull > 0 ∧ x ≤ m.lastX then .error "Points must be increasing by x."
  else do
    let ((accepted, h), scans) ← Metric.Indexed.addPoint lim m.toHull x y
    return ((accepted, {
      toHull := h
      lastRank := y
      points := if accepted then m.points ++ [(x, y)] else m.points }), scans)

end PgmMetric

/-! ### No access fails -/

namespace Indexed

variable {hull : List Point} {start i : ℕ} {p : Point}

theorem get_eq_ok (hi : i < hull.length) : get hull i = .ok (hull.getD i default) := by
  rw [get, List.getElem?_eq_getElem hi, List.getD_eq_getElem _ _ hi]

theorem resize_eq_take {n : ℕ} (hn : n ≤ hull.length) : resize hull n = hull.take n := by
  rw [resize, Nat.sub_eq_zero_of_le hn, List.replicate_zero, List.append_nil]

theorem scanExtreme_eq (worse : Slope → Slope → Bool) (best : Slope) (n bestI : ℕ)
    (hn : i + n = hull.length) (hbest : bestI < hull.length) :
    scanExtreme worse hull p (List.range' i n) best bestI =
        .ok (Metric.scanExtreme worse p (hull.drop i) best i bestI) ∧
      Metric.scanExtreme worse p (hull.drop i) best i bestI < hull.length := by
  induction n generalizing i best bestI with
  | zero =>
    have hnil : hull.drop i = [] := List.drop_eq_nil_of_le hn.ge
    rw [hnil]
    exact ⟨rfl, hbest⟩
  | succ n ih =>
    have hi : i < hull.length := by omega
    rw [List.range'_succ, scanExtreme, get_eq_ok hi, List.getD_eq_getElem _ _ hi,
      List.drop_eq_getElem_cons hi, Metric.scanExtreme]
    simp only [bind, Except.bind]
    split
    · exact ⟨rfl, hbest⟩
    · exact ih _ i (by omega) hi

theorem findExtreme_eq (worse : Slope → Slope → Bool) (hstart : start < hull.length) :
    ∃ index, findExtreme worse hull start p = .ok { hull, p, index } ∧ index < hull.length ∧
      index = Metric.scanExtreme worse p (hull.drop (start + 1))
        (hull.getD start default - p) (start + 1) start := by
  obtain ⟨hscan, hlt⟩ := scanExtreme_eq (p := p) worse (hull.getD start default - p)
    (hull.length - (start + 1)) start (Nat.add_sub_cancel' hstart) hstart
  refine ⟨_, ?_, hlt, rfl⟩
  rw [findExtreme, get_eq_ok hstart]
  simp only [bind, Except.bind, hscan]
  rfl

theorem hullEnd_eq (redundant : ℤ → Bool) {n : ℕ} (hn : n ≤ hull.length) :
    hullEnd redundant hull start p n = .ok (Metric.hullEnd redundant hull start p n) := by
  induction n with
  | zero => rfl
  | succ n ih =>
    rw [hullEnd, Metric.hullEnd]
    by_cases hstart : start + 2 ≤ n + 1
    case pos =>
      rw [if_pos hstart, get_eq_ok (by omega), get_eq_ok (by omega), Nat.add_sub_cancel,
        show n + 1 - 2 = n - 1 from rfl]
      simp only [bind, Except.bind, hstart, true_and]
      split
      · exact ih (by omega)
      · rfl
    case neg => rw [if_neg hstart, if_neg fun hand => hstart hand.1]

theorem updateHull_eq (redundant : ℤ → Bool) (hstart : start < hull.length) :
    updateHull redundant hull start p = .ok
      (hull.take (Metric.hullEnd redundant hull start p hull.length) ++ [p]) := by
  obtain ⟨-, hle, -⟩ := hullEnd_spec redundant hull start p hull.length hstart
  rw [updateHull, hullEnd_eq redundant le_rfl]
  simp only [bind, Except.bind, resize_eq_take hle]
  rfl

def limit : Side → Hull → Point → Except String (Hull × Scan)
  | .lower => limitUpper
  | .upper => limitLower

variable {h : Hull} {s : Side} {p1 p2 : Point}

def scanOf (s : Side) (h : Hull) (p : Point) : Scan where
  hull := h.vec s
  p := p
  index := (h.limit s p).start s

theorem limit_eq (hstart : ∀ s, h.start s < (h.vec s).length) :
    limit s h p = .ok (h.limit s p, scanOf s h p) ∧
      (h.limit s p).start s < (h.vec s).length := by
  cases s with
  | lower =>
    obtain ⟨index, hfind, hlt, rfl⟩ := findExtreme_eq (p := p) Slope.gt (hstart .lower)
    refine ⟨?_, hlt⟩
    change limitUpper h p = _
    rw [Hull.vec, Hull.start] at hfind hlt
    have hupdate : updateHull (fun c => c ≤ 0) h.upper h.upperStart p = .ok _ :=
      updateHull_eq _ (hstart .upper)
    rw [limitUpper, hfind, hupdate]
    simp only [bind, Except.bind, get_eq_ok hlt]
    rfl
  | upper =>
    obtain ⟨index, hfind, hlt, rfl⟩ := findExtreme_eq (p := p) Slope.lt (hstart .upper)
    refine ⟨?_, hlt⟩
    change limitLower h p = _
    rw [Hull.vec, Hull.start] at hfind hlt
    have hupdate : updateHull (fun c => c ≥ 0) h.lower h.lowerStart p = .ok _ :=
      updateHull_eq _ (hstart .lower)
    rw [limitLower, hfind, hupdate]
    simp only [bind, Except.bind, get_eq_ok hlt]
    rfl

theorem branch_eq (test : Bool) (hstart : ∀ s, h.start s < (h.vec s).length) :
    branch test (limit s h p) h =
      .ok (if test then h.limit s p else h, if test then some (scanOf s h p) else none) := by
  cases test with
  | true =>
    rw [(limit_eq hstart).1]
    rfl
  | false => rfl

theorem absorb_eq (hstart : ∀ s, h.start s < (h.vec s).length)
    (hbetween : ∀ s, (h.between p1).start s < ((h.between p1).vec s).length) :
    absorb h p1 p2 = .ok (h.absorb p1 p2,
      if (p1 - h.rectangle.r1).lt (h.rectangle.r3 - h.rectangle.r1) then
        some (scanOf .lower h p1)
      else none,
      if (p2 - (h.between p1).rectangle.r0).gt (h.rectangle.r2 - h.rectangle.r0) then
        some (scanOf .upper (h.between p1) p2)
      else none) := by
  have hfirst := branch_eq (s := .lower) (p := p1)
    ((p1 - h.rectangle.r1).lt (h.rectangle.r3 - h.rectangle.r1)) hstart
  have hsecond := branch_eq (s := .upper) (p := p2)
    ((p2 - (h.between p1).rectangle.r0).gt (h.rectangle.r2 - h.rectangle.r0)) hbetween
  change branch _ (limitUpper h p1) h = .ok (h.between p1, _) at hfirst
  change branch _ (limitLower (h.between p1) p2) (h.between p1) = _ at hsecond
  rw [absorb]
  simp only [bind, Except.bind, hfirst, hsecond]
  rfl

theorem absorb_of_not_entered
    (hlt : (p1 - h.rectangle.r1).lt (h.rectangle.r3 - h.rectangle.r1) = false)
    (hgt : (p2 - h.rectangle.r0).gt (h.rectangle.r2 - h.rectangle.r0) = false) :
    absorb h p1 p2 = .ok (h.absorb p1 p2, none, none) := by
  have hsame : h.absorb p1 p2 = h := by
    simp only [Hull.absorb, hlt, hgt, Bool.false_eq_true, if_false]
  rw [hsame, absorb]
  simp only [branch, hlt, Bool.false_eq_true, if_false, bind, Except.bind, pure, Except.pure, hgt]

theorem addPoint_of_two_le {lim : Limits} {x y : ℤ} (hcount : 2 ≤ h.pointsInHull) :
    addPoint lim h x y =
      if h.outside ⟨x, bandHi lim h.epsilon y⟩ ⟨x, bandLo lim h.epsilon y⟩ then
        .ok ((false, { h with lastX := x, pointsInHull := 0 }), none, none)
      else do
        let (h, first, second) ← absorb { h with lastX := x } ⟨x, bandHi lim h.epsilon y⟩
          ⟨x, bandLo lim h.epsilon y⟩
        return ((true, { h with pointsInHull := h.pointsInHull + 1 }), first, second) := by
  simp only [addPoint]
  rw [if_neg (by omega)]
  rfl

end Indexed

/-! ### The slope that a scan finds -/

def slopesAt (lim : Limits) (epsilon : ℤ) (s : Side) (pts : List (ℤ × ℤ)) (p : Point) : Set ℚ :=
  {a | ∃ q ∈ pts, a = (bandEnd lim epsilon s q - p).toRat}

section Extreme

variable {lim : Limits} {epsilon : ℤ} {s : Side} {pts : List (ℤ × ℤ)} {c p q : Point}
  {L : Line ℚ} {F : Set (Line ℚ)} {X : ℤ} {h : Hull}

theorem obeys_of_mem_family (hL : L ∈ family lim epsilon pts) {r : ℤ × ℤ} (hr : r ∈ pts) :
    Obeys s L (bandEnd lim epsilon s r) := by
  cases s with
  | lower => exact obeys_lower.mpr (hL r hr).1
  | upper => exact obeys_upper.mpr (hL r hr).2

theorem toRat_sub_eq (p q : Point) :
    (q - p).toRat = ((p.y - q.y : ℤ) : ℚ) / ((p.x - q.x : ℤ) : ℚ) := by
  change ((q.y - p.y : ℤ) : ℚ) / ((q.x - p.x : ℤ) : ℚ) = _
  rw [← neg_sub p.y, ← neg_sub p.x, Int.cast_neg, Int.cast_neg, neg_div_neg_eq]

theorem toRat_le_of_obeys (hc : c.x < p.x) (hq : q.x < p.x) (hobeys : Obeys s (lineOf c p) q) :
    s.sign * (c - p).toRat ≤ s.sign * (q - p).toRat := by
  have hcross := (obeys_lineOf_iff hc s q).mp hobeys
  have hc' : (0 : ℚ) < ((p.x - c.x : ℤ) : ℚ) := by exact_mod_cast sub_pos.mpr hc
  have hq' : (0 : ℚ) < ((p.x - q.x : ℤ) : ℚ) := by exact_mod_cast sub_pos.mpr hq
  rw [toRat_sub_eq, toRat_sub_eq, ← mul_div_assoc, ← mul_div_assoc, div_le_div_iff₀ hc' hq']
  have hle : s.sign * (p.y - c.y) * (p.x - q.x) ≤ s.sign * (p.y - q.y) * (p.x - c.x) := by
    rw [cross_def] at hcross
    linarith
  exact_mod_cast hle

def Scan.IsExtreme (lim : Limits) (epsilon : ℤ) (s : Side) (pts : List (ℤ × ℤ)) (scan : Scan) :
    Prop :=
  ∃ c, scan.hull[scan.index]? = some c ∧ (c - scan.p).toRat ∈ slopesAt lim epsilon s pts scan.p ∧
    ∀ a ∈ slopesAt lim epsilon s pts scan.p, s.sign * (c - scan.p).toRat ≤ s.sign * a

theorem Scan.IsExtreme.isLeast {scan : Scan} (hscan : scan.IsExtreme lim epsilon .lower pts) :
    ∃ c, scan.hull[scan.index]? = some c ∧
      IsLeast (slopesAt lim epsilon .lower pts scan.p) (c - scan.p).toRat := by
  obtain ⟨c, hc, hmem, hle⟩ := hscan
  exact ⟨c, hc, hmem, fun a ha => by simpa [Side.sign] using hle a ha⟩

theorem Scan.IsExtreme.isGreatest {scan : Scan} (hscan : scan.IsExtreme lim epsilon .upper pts) :
    ∃ c, scan.hull[scan.index]? = some c ∧
      IsGreatest (slopesAt lim epsilon .upper pts scan.p) (c - scan.p).toRat := by
  obtain ⟨c, hc, hmem, hle⟩ := hscan
  exact ⟨c, hc, hmem, fun a ha => by simpa [Side.sign] using hle a ha⟩

theorem limit_isExtreme (hfit : Fit F X (h.limit s p).side (h.limit s p).anchor (h.limit s p).tip)
    (hF : F ⊆ family lim epsilon pts) (hpts : ∀ r ∈ pts, r.1 < p.x)
    (hvec : ∀ q ∈ h.vec s, q.x < p.x → ∃ r ∈ pts, q = bandEnd lim epsilon s r) :
    (Indexed.scanOf s h p).IsExtreme lim epsilon s pts := by
  have hlt : (h.limit s p).start s < (h.vec s).length := by
    have hlt := Hull.start_lt_length (s := s) hfit
    rwa [Hull.limit_vec_self] at hlt
  have hanchor : (h.limit s p).anchor s = (h.vec s)[(h.limit s p).start s] := by
    rw [Hull.limit_anchor_self, List.getD_eq_getElem _ _ hlt]
  have hline := hfit.line_mem s
  have hcp := hfit.anchor_lt_tip s
  rw [Hull.limit_tip_self, hanchor] at hline hcp
  obtain ⟨r, hr, hc⟩ := hvec _ (List.getElem_mem hlt) hcp
  refine ⟨_, List.getElem?_eq_getElem hlt, ⟨r, hr, congrArg (fun q => (q - p).toRat) hc⟩, ?_⟩
  rintro a ⟨q, hq, rfl⟩
  refine toRat_le_of_obeys hcp ?_ (obeys_of_mem_family (hF hline) hq)
  cases s with
  | lower => exact hpts q hq
  | upper => exact hpts q hq

theorem absorb_isExtreme {p1 p2 : Point}
    (hfit : Fit (family lim epsilon pts) X h.side h.anchor h.tip)
    (hvec : ∀ s, ∀ q ∈ h.vec s, ∃ r ∈ pts, q = bandEnd lim epsilon s r)
    (hpts : ∀ r ∈ pts, r.1 < p1.x) (hx : p2.x = p1.x) (hX : X < p1.x) (hy : p2.y < p1.y)
    (hin : h.outside p1 p2 = false) :
    ∃ first second, Indexed.absorb h p1 p2 = .ok (h.absorb p1 p2, first, second) ∧
      (∀ scan ∈ first, scan.p = p1 ∧ scan.IsExtreme lim epsilon .lower pts) ∧
      ∀ scan ∈ second, scan.p = p2 ∧ scan.IsExtreme lim epsilon .upper pts := by
  obtain ⟨hkeep1, -⟩ := (Hull.outside_iff hfit p1 p2).mp hin
  have hfit₁ := (Hull.between_fit hfit hX hkeep1).1
  have hfit₂ := Hull.absorb_fit hfit hx hX hy hin
  refine ⟨_, _, Indexed.absorb_eq (fun s => Hull.start_lt_length hfit)
    fun s => Hull.start_lt_length hfit₁, fun scan hscan => ?_, fun scan hscan => ?_⟩
  · obtain ⟨hcut, hsome⟩ := Option.ite_none_right_eq_some.mp hscan
    obtain rfl := Option.some_inj.mp hsome
    rw [Hull.between, if_pos hcut] at hfit₁
    exact ⟨rfl, limit_isExtreme (s := .lower) hfit₁ Set.inter_subset_left hpts
      fun q hq _ => hvec .lower q hq⟩
  · obtain ⟨hcut, hsome⟩ := Option.ite_none_right_eq_some.mp hscan
    obtain rfl := Option.some_inj.mp hsome
    rw [Hull.absorb_eq_between, if_pos hcut] at hfit₂
    refine ⟨rfl, limit_isExtreme (s := .upper) hfit₂
      (Set.inter_subset_left.trans Set.inter_subset_left) (fun r hr => hx ▸ hpts r hr)
      fun q hq hlt => ?_⟩
    rw [Hull.between] at hq
    split at hq
    case isTrue =>
      rcases List.mem_append.mp hq with hq | hq
      · exact hvec .upper q (List.mem_of_mem_take hq)
      · obtain rfl := List.mem_singleton.mp hq
        exact absurd hx.symm hlt.ne
    case isFalse => exact hvec .upper q hq

end Extreme

/-! ### Reachable states -/

structure InSegment (lim : Limits) (h : Hull) (pts : List (ℤ × ℤ)) : Prop where
  holds : Holds lim h pts
  drawn : Drawn lim h pts
  le_lastX : ∀ p ∈ pts, p.1 ≤ h.lastX
  mem : ∀ p ∈ pts, lim.Mem p.2
  epsilon_nonneg : 0 ≤ h.epsilon

namespace InSegment

variable {lim : Limits} {h : Hull} {pts : List (ℤ × ℤ)} {x y : ℤ}

theorem nil (h0 : h.pointsInHull = 0) (heps : 0 ≤ h.epsilon) : InSegment lim h [] :=
  ⟨holds_nil h0, drawn_nil, by simp, by simp, heps⟩

theorem lt (hs : InSegment lim h pts) (hord : ¬ (h.pointsInHull > 0 ∧ x ≤ h.lastX)) :
    ∀ p ∈ pts, p.1 < x := by
  intro p hp
  have hpos : h.pointsInHull > 0 := by
    rw [hs.holds.count]
    exact List.length_pos_of_mem hp
  exact (hs.le_lastX p hp).trans_lt (not_le.mp fun hle => hord ⟨hpos, hle⟩)

theorem addPoint (hs : InSegment lim h pts) (hord : ¬ (h.pointsInHull > 0 ∧ x ≤ h.lastX))
    (hy : lim.Mem y) (hacc : (h.addPoint lim x y).1 = true) :
    InSegment lim (h.addPoint lim x y).2 (pts ++ [(x, y)]) := by
  have hlt := hs.lt hord
  have hlast : (h.addPoint lim x y).2.lastX = x := addPoint_lastX
  refine ⟨(hs.holds.addPoint hs.epsilon_nonneg hlt hs.mem hy).2 hacc,
    hs.drawn.addPoint hs.holds hacc, fun p hp => ?_, fun p hp => ?_, ?_⟩
  · rw [hlast]
    rcases List.mem_append.mp hp with hp | hp
    · exact (hlt p hp).le
    · obtain rfl := List.mem_singleton.mp hp
      exact le_rfl
  · rcases List.mem_append.mp hp with hp | hp
    · exact hs.mem p hp
    · obtain rfl := List.mem_singleton.mp hp
      exact hy
  · rw [addPoint_epsilon]
    exact hs.epsilon_nonneg

theorem start_lt (hs : InSegment lim h pts) (hlen : 2 ≤ pts.length) (s : Side) :
    h.start s < (h.vec s).length := Hull.start_lt_length (hs.holds.fit hlen)

theorem addPoint_isExtreme (hs : InSegment lim h pts) (hlen : 2 ≤ pts.length)
    (hord : ¬ (h.pointsInHull > 0 ∧ x ≤ h.lastX)) (hy : lim.Mem y) :
    ∃ first second, Indexed.addPoint lim h x y = .ok (h.addPoint lim x y, first, second) ∧
      (∀ scan ∈ first, scan.p = ⟨x, bandHi lim h.epsilon y⟩ ∧
        scan.IsExtreme lim h.epsilon .lower pts) ∧
      ∀ scan ∈ second, scan.p = ⟨x, bandLo lim h.epsilon y⟩ ∧
        scan.IsExtreme lim h.epsilon .upper pts := by
  have hcount : 2 ≤ h.pointsInHull := hs.holds.count ▸ hlen
  have hfit := hs.holds.fit hlen
  have hne : pts ≠ [] := by
    rintro rfl
    cases hlen
  have hlastX : h.lastX < x := not_le.mp fun hle => hord ⟨by omega, hle⟩
  rw [Indexed.addPoint_of_two_le hcount, addPoint_of_two_le hcount]
  cases hout : h.outside ⟨x, bandHi lim h.epsilon y⟩ ⟨x, bandLo lim h.epsilon y⟩ with
  | true => exact ⟨none, none, rfl, by simp, by simp⟩
  | false =>
    obtain ⟨first, second, habsorb, hscans⟩ : ∃ first second,
        Indexed.absorb { h with lastX := x } ⟨x, bandHi lim h.epsilon y⟩
            ⟨x, bandLo lim h.epsilon y⟩ =
          .ok (({ h with lastX := x } : Hull).absorb ⟨x, bandHi lim h.epsilon y⟩
            ⟨x, bandLo lim h.epsilon y⟩, first, second) ∧
        (∀ scan ∈ first, scan.p = ⟨x, bandHi lim h.epsilon y⟩ ∧
          scan.IsExtreme lim h.epsilon .lower pts) ∧
        ∀ scan ∈ second, scan.p = ⟨x, bandLo lim h.epsilon y⟩ ∧
          scan.IsExtreme lim h.epsilon .upper pts := by
      rcases hs.epsilon_nonneg.eq_or_lt with heps | heps
      · obtain ⟨h02, h23⟩ := hs.holds.degenerate hlen heps.symm
        have hband : bandLo lim h.epsilon y = bandHi lim h.epsilon y :=
          heps ▸ bandLo_eq_bandHi hy
        rw [hband] at hout ⊢
        obtain ⟨hlt, hgt⟩ := Hull.tests_of_degenerate (h := { h with lastX := x }) hfit h02 h23 hout
        exact ⟨none, none, Indexed.absorb_of_not_entered hlt hgt, by simp, by simp⟩
      · exact absorb_isExtreme (h := { h with lastX := x }) hfit (hs.drawn.vec hne) (hs.lt hord) rfl
          hlastX (bandLo_lt_bandHi heps hy) hout
    have hsame := Hull.absorb_pointsInHull (h := { h with lastX := x }) ⟨x, bandHi lim h.epsilon y⟩
      ⟨x, bandLo lim h.epsilon y⟩
    generalize ({ h with lastX := x } : Hull).absorb ⟨x, bandHi lim h.epsilon y⟩
      ⟨x, bandLo lim h.epsilon y⟩ = g at habsorb hsame ⊢
    refine ⟨first, second, ?_, hscans⟩
    simp only [habsorb, Bool.false_eq_true, if_false, bind, Except.bind, pure, Except.pure, hsame]

end InSegment

namespace PgmMetric

/-- The states that `add_point` and `reset` lead to, with the points that were accepted in the
segment.  A point that is rejected ends the segment, and an `add_point` that throws changes
nothing. -/
inductive Reachable (lim : Limits) (epsilon : ℤ) :
    OptimalPiecewiseLinearModel → List (ℤ × ℤ) → Prop
  | new : 0 ≤ epsilon → Reachable lim epsilon { epsilon } []
  | accept {m m' : OptimalPiecewiseLinearModel} {pts : List (ℤ × ℤ)} {x y : ℤ} :
      Reachable lim epsilon m pts → lim.Mem y → m.addPoint lim x y = .ok (true, m') →
      Reachable lim epsilon m' (pts ++ [(x, y)])
  | reject {m m' : OptimalPiecewiseLinearModel} {pts : List (ℤ × ℤ)} {x y : ℤ} :
      Reachable lim epsilon m pts → lim.Mem y → m.addPoint lim x y = .ok (false, m') →
      Reachable lim epsilon m' []
  | reset {m : OptimalPiecewiseLinearModel} {pts : List (ℤ × ℤ)} :
      Reachable lim epsilon m pts → Reachable lim epsilon m.reset []

section Reachable

variable {lim : Limits} {epsilon : ℤ} {m m' : OptimalPiecewiseLinearModel}
  {pts : List (ℤ × ℤ)} {x y : ℤ} {accepted : Bool}

theorem addPoint_ok (hadd : m.addPoint lim x y = .ok (accepted, m')) :
    ¬ (m.pointsInHull > 0 ∧ x ≤ m.lastX) ∧ m.toHull.addPoint lim x y = (accepted, m'.toHull) ∧
      m' = { m'.toHull with
        lastRank := y
        points := if accepted then m.points ++ [(x, y)] else m.points } := by
  rw [OptimalPiecewiseLinearModel.addPoint] at hadd
  split at hadd
  case isTrue => cases hadd
  case isFalse hord =>
    cases hadd
    exact ⟨hord, rfl, rfl⟩

theorem Reachable.inSegment (hr : Reachable lim epsilon m pts) :
    InSegment lim m.toHull pts ∧ m.epsilon = epsilon := by
  induction hr with
  | new h0 => exact ⟨.nil rfl h0, rfl⟩
  | @accept m m' pts x y _ hy hadd ih =>
    obtain ⟨hs, rfl⟩ := ih
    obtain ⟨hord, hhull, -⟩ := addPoint_ok hadd
    have hnext := hs.addPoint hord hy (congrArg Prod.fst hhull)
    have heps : (m.toHull.addPoint lim x y).2.epsilon = m.epsilon := addPoint_epsilon
    rw [hhull] at hnext heps
    exact ⟨hnext, heps⟩
  | @reject m m' pts x y _ hy hadd ih =>
    obtain ⟨hs, rfl⟩ := ih
    obtain ⟨hord, hhull, -⟩ := addPoint_ok hadd
    have hrej : m'.toHull = { m.toHull with lastX := x, pointsInHull := 0 } := by
      have hrej := addPoint_rejected_eq (congrArg Prod.fst hhull)
      rwa [hhull] at hrej
    rw [hrej]
    exact ⟨.nil rfl hs.epsilon_nonneg, rfl⟩
  | reset _ ih => exact ⟨.nil rfl ih.1.epsilon_nonneg, ih.2⟩

end Reachable

/-- In a reachable state with two or more points in the segment no access of a hull vector fails.
The scan of the first branch chooses the minimum slope to the new upper band end over all lower band
ends of the segment, and that of the second branch the maximum slope from the new lower band end
over all upper ones.  Behind both resizes the start indices are in range again. -/
theorem addPoint_scans_exact (lim : Limits) (epsilon : ℤ) (m m' : OptimalPiecewiseLinearModel)
    (pts : List (ℤ × ℤ)) (x y : ℤ) (accepted : Bool) (hr : Reachable lim epsilon m pts)
    (hlen : 2 ≤ pts.length) (hy : lim.Mem y) (hadd : m.addPoint lim x y = .ok (accepted, m')) :
    ∃ first second, Indexed.addPoint lim m x y = .ok ((accepted, m'), first, second) ∧
      (∀ scan ∈ first, scan.p = bandEnd lim epsilon .upper (x, y) ∧
        ∃ c, scan.hull[scan.index]? = some c ∧
          IsLeast (slopesAt lim epsilon .lower pts scan.p) (c - scan.p).toRat) ∧
      (∀ scan ∈ second, scan.p = bandEnd lim epsilon .lower (x, y) ∧
        ∃ c, scan.hull[scan.index]? = some c ∧
          IsGreatest (slopesAt lim epsilon .upper pts scan.p) (c - scan.p).toRat) ∧
      (accepted = true → m'.lowerStart < m'.lower.length ∧ m'.upperStart < m'.upper.length) := by
  obtain ⟨hs, rfl⟩ := hr.inSegment
  obtain ⟨hord, hhull, hm'⟩ := addPoint_ok hadd
  obtain ⟨first, second, hindexed, hfirst, hsecond⟩ := hs.addPoint_isExtreme hlen hord hy
  refine ⟨first, second, ?_, fun scan hscan => ?_, fun scan hscan => ?_, ?_⟩
  · rw [Indexed.addPoint, if_neg hord, hindexed, hhull, hm']
    rfl
  · exact ⟨(hfirst scan hscan).1, (hfirst scan hscan).2.isLeast⟩
  · exact ⟨(hsecond scan hscan).1, (hsecond scan hscan).2.isGreatest⟩
  · rintro rfl
    have hnext := hs.addPoint hord hy (congrArg Prod.fst hhull)
    rw [hhull] at hnext
    have hstart := hnext.start_lt (by rw [List.length_append]; omega)
    exact ⟨hstart .lower, hstart .upper⟩

theorem addPoint_scans_exact_four_points :
    ∃ m m', Reachable .uint64 1 m [(0, 0), (10, 1), (20, 2)] ∧
      Indexed.addPoint .uint64 m 30 3 = .ok ((true, m'),
        some ⟨[⟨0, 0⟩, ⟨20, 1⟩], ⟨30, 4⟩, 0⟩, some ⟨[⟨0, 1⟩, ⟨30, 4⟩], ⟨30, 2⟩, 0⟩) ∧
      IsLeast (slopesAt .uint64 1 .lower [(0, 0), (10, 1), (20, 2)] ⟨30, 4⟩)
        (Slope.toRat ⟨-30, -4⟩) ∧
      IsGreatest (slopesAt .uint64 1 .upper [(0, 0), (10, 1), (20, 2)] ⟨30, 2⟩)
        (Slope.toRat ⟨-30, -1⟩) := by
  have hmem : ∀ y : ℤ, 0 ≤ y → y ≤ 3 → Limits.uint64.Mem y := by
    intro y h0 h3
    simp only [Limits.Mem, Limits.uint64]
    omega
  have hr : Reachable .uint64 1
      ⟨⟨1, [⟨0, 0⟩, ⟨20, 1⟩], [⟨0, 1⟩, ⟨20, 3⟩], 0, 20, 0, 0, 3,
        ⟨⟨0, 1⟩, ⟨0, 0⟩, ⟨20, 1⟩, ⟨20, 3⟩⟩⟩, 2, [(0, 0), (10, 1), (20, 2)]⟩
      [(0, 0), (10, 1), (20, 2)] :=
    @Reachable.accept .uint64 1 _ _ [(0, 0), (10, 1)] 20 2
      (@Reachable.accept .uint64 1 _ _ [(0, 0)] 10 1
        (@Reachable.accept .uint64 1 _ _ [] 0 0 (.new (by decide)) (hmem 0 (by decide) (by decide))
          rfl)
        (hmem 1 (by decide) (by decide)) rfl)
      (hmem 2 (by decide) (by decide)) rfl
  obtain ⟨first, second, hindexed, hfirst, hsecond, -⟩ := addPoint_scans_exact .uint64 1 _
    ⟨⟨1, [⟨0, 0⟩, ⟨30, 2⟩], [⟨0, 1⟩, ⟨30, 4⟩], 0, 30, 0, 0, 4,
      ⟨⟨0, 1⟩, ⟨0, 0⟩, ⟨30, 2⟩, ⟨30, 4⟩⟩⟩, 3, [(0, 0), (10, 1), (20, 2), (30, 3)]⟩
    _ 30 3 true hr (by decide) (hmem 3 (by decide) (by decide)) rfl
  obtain ⟨rfl, rfl⟩ : first = some ⟨[⟨0, 0⟩, ⟨20, 1⟩], ⟨30, 4⟩, 0⟩ ∧
      second = some ⟨[⟨0, 1⟩, ⟨30, 4⟩], ⟨30, 2⟩, 0⟩ := by
    have hscans := congrArg (fun r => r.toOption.map Prod.snd) hindexed
    exact Prod.ext_iff.mp (Option.some_inj.mp hscans.symm)
  obtain ⟨-, c, hc, hleast⟩ := hfirst _ rfl
  obtain ⟨-, d, hd, hgreatest⟩ := hsecond _ rfl
  cases hc
  cases hd
  exact ⟨_, _, hr, hindexed, hleast, hgreatest⟩

end PgmMetric

end LearnedIndexFramework.Metric
