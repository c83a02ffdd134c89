import LearnedIndexFramework.Metric.Model

/-! `ConstraintGenerator` of `datasets/generator.cpp`: keys close to a global and to a local line, whose
slopes are drawn at random. -/

namespace LearnedIndexFramework.Metric.Generator

open Lib

/-- What the program leaves open: the numbers that its three distributions give, draw after draw, and
the integer that an infinity or NaN is converted to.  The last two say what a `long double` and a
`double` make of an exact result. -/
structure Chance where
  distribx : ℕ → ℤ
  distriby : ℕ → ℤ
  randomGen : ℕ → ℤ
  undefined : ℤ
  distribx_mem : ∀ i, 101 ≤ distribx i ∧ distribx i ≤ 102
  distriby_mem : ∀ i, 1 ≤ distriby i ∧ distriby i ≤ 10
  randomGen_mem : ∀ i, 0 ≤ randomGen i ∧ randomGen i ≤ 1000
  longDouble : ℚ → ℚ
  double : ℚ → ℚ

namespace Chance

variable (c : Chance)

structure Exact : Prop where
  longDouble : c.longDouble = id
  double : c.double = id

/-- The conversion of a `long double` to `X`, after `ceill`, `floorl` or neither. -/
def toX (round : ℚ → ℤ) : Option ℚ → ℤ
  | some q => round q
  | none => c.undefined

/-- `operator long double` with its infinities and NaN, which are `none`. -/
def toLongDouble (s : Slope) : Option ℚ :=
  if s.dx = 0 then none else some (c.longDouble (c.longDouble s.dy / c.longDouble s.dx))

/-- `local_slope_ > 0.2`, where `dy / 0` is an infinity. -/
def steep (s : Slope) : Bool :=
  match c.toLongDouble s with
  | some m => c.double (1 / 5) < m
  | none => 0 < s.dy

/-- `local_slope_ >= 1 || local_slope_ <= 0`, which NaN is not. -/
def inappropriate (s : Slope) : Bool :=
  match c.toLongDouble s with
  | some m => 1 ≤ m ∨ m ≤ 0
  | none => s.dy ≠ 0

def interceptOf (s : Slope) (origin : Point) : Option ℚ :=
  (c.toLongDouble s).map fun m => c.longDouble (origin.y - c.longDouble (origin.x * m))

def keyAt (s : Slope) (intercept : Option ℚ) (v : ℤ) : Option ℚ :=
  match c.toLongDouble s, intercept with
  | some m, some b => if m = 0 then none else some (c.longDouble (c.longDouble (v - b) / m))
  | _, _ => none

def between (lo span : ℤ) (draw : ℕ) : ℤ :=
  let random := c.double (c.randomGen draw / 1000)
  truncate (c.double (c.double lo + c.double (c.double span * random)))

end Chance

structure ConstraintGenerator where
  localEpsilon : ℤ
  globalEpsilon : ℤ
  lastX : ℤ := 0
  globalOrigin : Point := ⟨0, 0⟩
  localOrigin : Point := ⟨0, 0⟩
  localSlope : Slope := ⟨0, 0⟩
  globalSlope : Slope := ⟨0, 0⟩
  globalIntercept : Option ℚ := none
  localIntercept : Option ℚ := none
  drawn : ℕ := 0

namespace ConstraintGenerator

variable (c : Chance) (g : ConstraintGenerator)

def setLastX (lastX : ℤ) : ConstraintGenerator := { g with lastX }
def setGlobalOrigin (x y : ℤ) : ConstraintGenerator := { g with globalOrigin := ⟨x, y⟩ }
def setLocalOrigin (x y : ℤ) : ConstraintGenerator := { g with localOrigin := ⟨x, y⟩ }

def globalAt (v : ℤ) : Option ℚ := c.keyAt g.globalSlope g.globalIntercept v
def localAt (v : ℤ) : Option ℚ := c.keyAt g.localSlope g.localIntercept v

def generateGlobalSlope : ConstraintGenerator :=
  let globalSlope := ⟨c.distribx g.drawn, c.distriby (g.drawn + 1)⟩
  { g with
    globalSlope
    globalIntercept := c.interceptOf globalSlope g.globalOrigin
    drawn := g.drawn + 2 }

def newSlope (targetRank selectX : ℤ) : Slope := (⟨selectX, targetRank⟩ : Point) - g.localOrigin

def covered (targetRank selectX : ℤ) : Bool :=
  let nextMaxGlobal := c.toX truncate (g.globalAt c (targetRank + 1 + g.globalEpsilon))
  let localSlope := g.newSlope targetRank selectX
  let nextMaxLocal := c.toX truncate
    (c.keyAt localSlope (c.interceptOf localSlope g.localOrigin) (targetRank + 1 + g.localEpsilon))
  nextMaxLocal ≥ nextMaxGlobal ∨ |nextMaxGlobal - nextMaxLocal| ≤ 1

/-- The first loop of `generate_local_slope`; `midX - 1 - selectX` bounds its rounds. -/
def flatten (targetRank midX : ℤ) : ℕ → ℤ → ℤ
  | 0, selectX => selectX
  | n + 1, selectX =>
    if c.steep (g.newSlope targetRank selectX) ∧ selectX < midX - 1 then
      flatten targetRank midX n (selectX + 1)
    else selectX

/-- Its second loop; `selectX - minX` bounds its rounds. -/
def uncover (targetRank minX : ℤ) : ℕ → ℤ → ℤ
  | 0, selectX => selectX
  | n + 1, selectX =>
    if g.covered c targetRank selectX then
      if selectX ≤ minX then selectX else uncover targetRank minX n (selectX - 1)
    else selectX

/-- The key through which `generate_local_slope` draws the local line. -/
def select (targetRank : ℤ) : ℤ :=
  let minX := max (c.toX Int.ceil (g.globalAt c (targetRank - g.globalEpsilon))) (g.lastX + 1)
  let maxX := c.toX Int.floor (g.globalAt c (targetRank + g.globalEpsilon))
  let midX := c.toX Int.floor (g.globalAt c targetRank)
  let midX := if midX ≤ minX then maxX else midX
  let selectX := c.between minX (midX - minX - 1) g.drawn
  let selectX := g.flatten c targetRank midX (midX - 1 - selectX).toNat selectX
  g.uncover c targetRank minX (selectX - minX).toNat selectX

def generateLocalSlope (targetRank : ℤ) : Except String ConstraintGenerator :=
  let selectX := g.select c targetRank
  let localSlope := g.newSlope targetRank selectX
  if c.inappropriate localSlope then .error "cannot select an approapriate local slope = "
  else if g.covered c targetRank selectX then .error "cannot select an uncovered local slope = "
  else .ok { g with
    localSlope
    localIntercept := c.interceptOf localSlope g.localOrigin
    drawn := g.drawn + 1 }

def generateOutsideLocal (rank restrictRank : ℤ) : ℤ × ConstraintGenerator :=
  let nextMaxGlobal := c.toX truncate (g.globalAt c (rank + g.globalEpsilon))
  let restrictGlobal := c.toX truncate (g.globalAt c restrictRank)
  let nextMaxGlobal := min nextMaxGlobal (restrictGlobal - (restrictRank - rank) * 2)
  let nextMaxLocal := c.toX truncate (g.localAt c (rank + g.localEpsilon))
  if nextMaxGlobal < nextMaxLocal then (g.lastX + 1, g.setLastX (g.lastX + 1))
  else
    let selectX := min nextMaxGlobal
      (c.between (nextMaxLocal + 1) (nextMaxGlobal - nextMaxLocal) g.drawn)
    (selectX, { g with lastX := selectX, drawn := g.drawn + 1 })

def generateOutsideGlobal (rank : ℤ) : ℤ × ConstraintGenerator :=
  let nextMaxGlobal := c.toX truncate (g.globalAt c (rank + g.globalEpsilon))
  (nextMaxGlobal + 1, g.setLastX (nextMaxGlobal + 1))

def generateKey (rank : ℤ) : ℤ × ConstraintGenerator :=
  let globalMinX := c.toX Int.ceil (g.globalAt c (rank - g.globalEpsilon))
  let globalMaxX := c.toX Int.floor (g.globalAt c (rank + g.globalEpsilon))
  let localMinX := c.toX Int.ceil (g.localAt c (rank - g.localEpsilon))
  let localMaxX := c.toX Int.floor (g.localAt c (rank + g.localEpsilon))
  let minX := max (max localMinX globalMinX) (g.lastX + 1)
  let maxX := min localMaxX globalMaxX
  let ret := c.between minX (maxX - minX) g.drawn
  (ret, { g with lastX := ret, drawn := g.drawn + 1 })

/-! ### A target behind the origin

A local model without keys has its target one rank below its origin, so its line has to fall to the
left.  No key that the loops select gives such a line. -/

section Select

variable {c : Chance} {g : ConstraintGenerator} {targetRank midX minX selectX : ℤ}

theorem le_flatten (n : ℕ) : selectX ≤ g.flatten c targetRank midX n selectX := by
  induction n generalizing selectX with
  | zero => exact le_rfl
  | succ n ih =>
    rw [flatten]
    split
    · exact (le_add_of_nonneg_right zero_le_one).trans ih
    · exact le_rfl

theorem min_le_uncover (n : ℕ) : min selectX minX ≤ g.uncover c targetRank minX n selectX := by
  induction n generalizing selectX with
  | zero => exact min_le_left _ _
  | succ n ih =>
    rw [uncover]
    split
    · split
      · exact min_le_left _ _
      · next hlt =>
        have hstep : min (selectX - 1) minX ≤ g.uncover c targetRank minX n (selectX - 1) := ih
        omega
    · exact min_le_left _ _

theorem random_mem (c : Chance) (draw : ℕ) :
    0 ≤ (c.randomGen draw : ℚ) / 1000 ∧ (c.randomGen draw : ℚ) / 1000 ≤ 1 := by
  obtain ⟨hlo, hhi⟩ := c.randomGen_mem draw
  have hlo' : (0 : ℚ) ≤ c.randomGen draw := by exact_mod_cast hlo
  have hhi' : (c.randomGen draw : ℚ) ≤ 1000 := by exact_mod_cast hhi
  constructor
  · exact div_nonneg hlo' (by norm_num)
  · rw [div_le_one (by norm_num)]
    exact hhi'

theorem le_select {x : ℤ} (hexact : c.Exact) (hlast : g.lastX = x)
    (hmin : c.toX Int.ceil (g.globalAt c (targetRank - g.globalEpsilon)) ≤ x + 1)
    (hmid : c.toX Int.floor (g.globalAt c targetRank) ≤ x + 1)
    (hmax : x ≤ c.toX Int.floor (g.globalAt c (targetRank + g.globalEpsilon))) :
    x - 1 ≤ g.select c targetRank := by
  obtain ⟨hlo, hhi⟩ := random_mem c g.drawn
  have hminX : max (c.toX Int.ceil (g.globalAt c (targetRank - g.globalEpsilon))) (g.lastX + 1) =
      x + 1 := by omega
  simp only [select, hminX, if_pos hmid]
  generalize c.toX Int.floor (g.globalAt c (targetRank + g.globalEpsilon)) = maxX at hmax
  have hdrawn : x - 1 ≤ c.between (x + 1) (maxX - (x + 1) - 1) g.drawn := by
    simp only [Chance.between, hexact.double, id]
    refine le_truncate ?_
    have hmax' : (x : ℚ) ≤ maxX := by exact_mod_cast hmax
    push_cast
    nlinarith
  refine le_trans ?_ (min_le_uncover _)
  exact le_min (hdrawn.trans (le_flatten _)) (by omega)

end Select

structure AtOrigin (c : Chance) (g : ConstraintGenerator) (x y : ℤ) : Prop where
  lastX : g.lastX = x
  localOrigin : g.localOrigin = ⟨x, y⟩
  globalAt : ∃ m : ℚ, 0 < m ∧ ∀ v, g.globalAt c v = some (x + (v - y) / m)

section Behind

variable {c : Chance} {g : ConstraintGenerator} {x y : ℤ}

theorem toLongDouble_of_exact (hexact : c.Exact) {s : Slope} (hdx : s.dx ≠ 0) :
    c.toLongDouble s = some s.toRat := by
  simp only [Chance.toLongDouble, if_neg hdx, hexact.longDouble, id, Slope.toRat]

theorem keyAt_interceptOf (hexact : c.Exact) {s : Slope} (hdx : s.dx ≠ 0) (hpos : 0 < s.toRat)
    (v : ℤ) : c.keyAt s (c.interceptOf s ⟨x, y⟩) v = some (x + (v - y) / s.toRat) := by
  simp only [Chance.keyAt, Chance.interceptOf, toLongDouble_of_exact hexact hdx, Option.map_some,
    if_neg hpos.ne', hexact.longDouble, id]
  congr 1
  field_simp
  ring

theorem atOrigin (hexact : c.Exact) (g : ConstraintGenerator) (x y : ℤ) :
    AtOrigin c ((((g.setLastX x).setGlobalOrigin x y).setLocalOrigin x y).generateGlobalSlope c)
      x y := by
  obtain ⟨hdx, -⟩ := c.distribx_mem g.drawn
  obtain ⟨hdy, -⟩ := c.distriby_mem (g.drawn + 1)
  have hdx' : (0 : ℚ) < c.distribx g.drawn := by exact_mod_cast (by omega)
  have hdy' : (0 : ℚ) < c.distriby (g.drawn + 1) := by exact_mod_cast (by omega)
  have hpos : 0 < Slope.toRat ⟨c.distribx g.drawn, c.distriby (g.drawn + 1)⟩ :=
    div_pos hdy' hdx'
  refine ⟨rfl, rfl, _, hpos, fun v => ?_⟩
  exact keyAt_interceptOf hexact (by dsimp only; omega) hpos v

theorem AtOrigin.newSlope (horigin : g.AtOrigin c x y) (selectX : ℤ) :
    g.newSlope (y - 1) selectX = ⟨selectX - x, -1⟩ := by
  rw [ConstraintGenerator.newSlope, horigin.localOrigin]
  exact congrArg (Slope.mk (selectX - x)) (by dsimp only; omega)

theorem le_of_not_inappropriate (hexact : c.Exact) {dx : ℤ}
    (h : c.inappropriate ⟨dx, -1⟩ = false) : dx ≤ -2 ∧ 0 < Slope.toRat ⟨dx, -1⟩ := by
  by_cases hdx : dx = 0
  · simp [Chance.inappropriate, Chance.toLongDouble, hdx] at h
  · simp only [Chance.inappropriate, toLongDouble_of_exact hexact (s := ⟨dx, -1⟩) hdx,
      decide_eq_false_iff_not, not_or, not_le] at h
    obtain ⟨hlt, hpos⟩ := h
    refine ⟨?_, hpos⟩
    simp only [Slope.toRat, Int.cast_neg, Int.cast_one] at hlt hpos
    have hneg : (dx : ℚ) < 0 := by
      by_contra hnonneg
      exact absurd hpos (not_lt.mpr (div_nonpos_of_nonpos_of_nonneg (by norm_num)
        (not_lt.mp hnonneg)))
    rw [div_lt_one_of_neg hneg] at hlt
    have hdx' : dx < -1 := by exact_mod_cast hlt
    omega

theorem covered_of_behind (hexact : c.Exact) (horigin : g.AtOrigin c x y)
    (hlocal : 0 ≤ g.localEpsilon) (hglobal : g.globalEpsilon = 0) {selectX : ℤ}
    (hgood : c.inappropriate (g.newSlope (y - 1) selectX) = false) :
    g.covered c (y - 1) selectX = true := by
  obtain ⟨m, -, hat⟩ := horigin.globalAt
  rw [horigin.newSlope] at hgood
  obtain ⟨hdx, hpos⟩ := le_of_not_inappropriate hexact hgood
  have hne : (⟨selectX - x, -1⟩ : Slope).dx ≠ 0 := by
    dsimp only
    omega
  have hglobalAt : c.toX truncate (g.globalAt c (y - 1 + 1 + g.globalEpsilon)) = x := by
    rw [hat, hglobal]
    simp [Chance.toX]
  have hnext : x ≤ truncate (x + (((y - 1 + 1 + g.localEpsilon : ℤ) : ℚ) - y) /
      Slope.toRat ⟨selectX - x, -1⟩) := by
    refine le_truncate (le_add_of_nonneg_right (div_nonneg ?_ hpos.le))
    have hlocal' : (0 : ℚ) ≤ g.localEpsilon := by exact_mod_cast hlocal
    push_cast
    linarith
  rw [covered, hglobalAt, horigin.newSlope, horigin.localOrigin, keyAt_interceptOf hexact hne hpos]
  exact decide_eq_true (Or.inl hnext)

theorem generateLocalSlope_behind (hexact : c.Exact) (horigin : g.AtOrigin c x y)
    (hlocal : 0 ≤ g.localEpsilon) (hglobal : 0 ≤ g.globalEpsilon) :
    ∃ what, g.generateLocalSlope c (y - 1) = .error what := by
  obtain ⟨m, hm, hat⟩ := horigin.globalAt
  rw [generateLocalSlope]
  split
  · exact ⟨_, rfl⟩
  next hgood =>
  rw [Bool.not_eq_true] at hgood
  rcases hglobal.eq_or_lt with hzero | hpos
  · rw [if_pos (covered_of_behind hexact horigin hlocal hzero.symm hgood)]
    exact ⟨_, rfl⟩
  · rw [horigin.newSlope] at hgood
    have hdx := (le_of_not_inappropriate hexact hgood).1
    have hpos' : (1 : ℚ) ≤ g.globalEpsilon := by exact_mod_cast hpos
    have hback : ∀ v : ℚ, v ≤ 0 → (x : ℚ) + v / m ≤ (x + 1 : ℤ) := by
      intro v hv
      push_cast
      linarith [div_nonpos_of_nonpos_of_nonneg hv hm.le]
    have hle : x - 1 ≤ g.select c (y - 1) := le_select hexact horigin.lastX ?_ ?_ ?_
    · omega
    · rw [hat]
      refine Int.ceil_le.mpr (hback _ ?_)
      push_cast
      linarith
    · rw [hat]
      refine Int.cast_le.mp ((Int.floor_le _).trans (hback _ ?_))
      push_cast
      linarith
    · rw [hat]
      refine Int.le_floor.mpr (le_add_of_nonneg_right (div_nonneg ?_ hm.le))
      push_cast
      linarith

end Behind

/-! ### The error bounds -/

def epsilons (g : ConstraintGenerator) : ℤ × ℤ := (g.localEpsilon, g.globalEpsilon)

section Epsilons

variable {c : Chance} {g g' : ConstraintGenerator} {rank restrictRank : ℤ}

@[simp] theorem generateKey_epsilons : (g.generateKey c rank).2.epsilons = g.epsilons := rfl

@[simp] theorem generateOutsideLocal_epsilons :
    (g.generateOutsideLocal c rank restrictRank).2.epsilons = g.epsilons := by
  rw [generateOutsideLocal]
  split <;> rfl

theorem generateLocalSlope_epsilons (h : g.generateLocalSlope c rank = .ok g') :
    g'.epsilons = g.epsilons := by
  rw [generateLocalSlope] at h
  split at h
  · cases h
  · split at h
    · cases h
    · cases h
      rfl

end Epsilons

end ConstraintGenerator

end LearnedIndexFramework.Metric.Generator
