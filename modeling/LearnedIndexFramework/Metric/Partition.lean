import LearnedIndexFramework.Metric.Outside
import LearnedIndexFramework.Metric.Constraint

/-! The loops with which `dataGenerator` fills its buffer, segment by segment.  Every round writes
one key at `cur_rank`, so what they write is decided by how often they go round. -/

namespace LearnedIndexFramework.Metric.Generator

open Lib

inductive Refusal
  | intOverflow
  | invalidArgument
  | wrongSetting
  deriving DecidableEq

inductive Stop
  | step (what : String)
  | search (points : ℕ)
  deriving DecidableEq

/-- The local variables of `dataGenerator`, and the assignments to `data` so far. -/
structure Locals where
  globalPla : Hull
  myGenerator : ConstraintGenerator
  curRank : ℕ := 1
  curKey : ℤ := 0
  data : List (ℕ × ℤ) := []

def orStop {α : Type} : Except String α → Except Stop α
  | .ok a => .ok a
  | .error what => .error (.step what)

def stepIf {ε α : Type} (c : Bool) (f : α → Except ε α) (a : α) : Except ε α :=
  if c then f a else .ok a

namespace Locals

def put (key : ℤ) (s : Locals) : Locals :=
  { s with curKey := key, data := s.data ++ [(s.curRank, key)] }

def addChecked (s : Locals) : Except String Locals := do
  let (fits, pla) := checkPoint .int64 s.globalPla s.curKey s.curRank
  let (_, globalPla) ← addPoint .int64 (if fits then pla else pla.reset) s.curKey s.curRank
  return { s with globalPla }

variable (c : Chance) (checked : Bool)

def nextKey (s : Locals) : Except String Locals := do
  let (key, myGenerator) := s.myGenerator.generateKey c s.curRank
  let s ← stepIf checked addChecked { s.put key with myGenerator }
  return { s with curRank := s.curRank + 1 }

def nextLocal (keys : ℕ) (s : Locals) : Except String Locals := do
  let target := (s.curRank : ℤ) + keys - 1
  let (key, myGenerator) := s.myGenerator.generateOutsideLocal c s.curRank target
  let s ← stepIf checked addChecked { s.put key with myGenerator }
  let myGenerator ←
    (s.myGenerator.setLocalOrigin s.curKey s.curRank).generateLocalSlope c target
  return { s with myGenerator, curRank := s.curRank + 1 }

/-- What the first key of a global segment with `keys` keys in its local models sets. -/
def enterGlobal (keys : ℕ) (key : ℤ) (pla : Hull) (myGenerator : ConstraintGenerator)
    (s : Locals) : Except String Locals := do
  let (_, globalPla) ← addPoint .int64 pla.reset key s.curRank
  let myGenerator := (myGenerator.setLastX key).setGlobalOrigin key s.curRank
  let myGenerator := (myGenerator.setLocalOrigin key s.curRank).generateGlobalSlope c
  let myGenerator ← myGenerator.generateLocalSlope c ((s.curRank : ℤ) + keys - 1)
  return { s.put key with globalPla, myGenerator, curRank := s.curRank + 1 }

/-- That key is searched for in at most `fuel` rounds. -/
def nextGlobal (fuel keys : ℕ) (s : Locals) : Except Stop Locals :=
  let (key, myGenerator) := s.myGenerator.generateOutsideGlobal c s.curRank
  match searchOutside .int64 fuel s.globalPla key s.curRank with
  | none => .error (.search s.globalPla.pointsInHull)
  | some (key, pla) => orStop (s.enterGlobal c keys key pla myGenerator)

def keyLoop : ℕ → Locals → Except String Locals
  | 0, s => .ok s
  | n + 1, s => do
    let s ← s.nextKey c checked
    keyLoop n s

/-- The loop over all local models of a global segment but the last, from `j` on. -/
def localLoop (localModels keys : ℕ) : ℕ → ℕ → Locals → Except String Locals
  | 0, _, s => .ok s
  | n + 1, j, s => do
    let s ← s.keyLoop c checked (keys - 1)
    let s ← stepIf (j ≠ localModels - 2) (nextLocal c checked keys) s
    localLoop localModels keys n (j + 1) s

def fillGlobal (localModels keys keysInLast : ℕ) (s : Locals) : Except String Locals := do
  let s ← s.localLoop c checked localModels keys (localModels - 1) 0
  let s ← stepIf (localModels ≠ 1) (nextLocal c checked keysInLast) s
  s.keyLoop c checked (keysInLast - 1)

/-- The loop over all global segments but the last, from `i` on. -/
def globalLoop (fuel globalValue localModels keys keysInLast : ℕ) :
    ℕ → ℕ → Locals → Except Stop Locals
  | 0, _, s => .ok s
  | n + 1, i, s => do
    let s ← orStop (s.fillGlobal c true localModels keys keysInLast)
    let s ← stepIf (i ≠ globalValue - 2) (nextGlobal c fuel keys) s
    globalLoop fuel globalValue localModels keys keysInLast n (i + 1) s

/-- The slopes of the first segment and `data[1]`. -/
def start (localEpsilon globalEpsilon : ℤ) (keys : ℕ) : Except String Locals := do
  let myGenerator : ConstraintGenerator := { localEpsilon, globalEpsilon }
  let myGenerator ← (myGenerator.generateGlobalSlope c).generateLocalSlope c keys
  let (key, myGenerator) := myGenerator.generateKey c 1
  let (_, globalPla) ← addPoint .int64 (Hull.reset { epsilon := globalEpsilon }) key 1
  return { put key { globalPla, myGenerator } with curRank := 2 }

def fill (fuel : ℕ) (localEpsilon globalEpsilon : ℤ) (localValue globalValue num : ℕ) :
    Except Stop Locals := do
  let localModels := localValue / globalValue
  let keysPerGlobal := num / globalValue
  let keys := keysPerGlobal / localModels
  let s ← orStop (start c localEpsilon globalEpsilon keys)
  let s ← s.globalLoop c fuel globalValue localModels keys (keys + keysPerGlobal % localModels)
    (globalValue - 1) 0
  let localModels := localModels + localValue % globalValue
  let keysInLastGlobal := keysPerGlobal + num % globalValue
  let keys := keysInLastGlobal / localModels
  let s ← stepIf (globalValue ≠ 1) (nextGlobal c fuel keys) s
  orStop (s.fillGlobal c false localModels keys (keys + keysInLastGlobal % localModels))

end Locals

/-- `dataGenerator` up to the end of its loops. -/
def dataGenerator (c : Chance) (fuel : ℕ) (localEpsilon globalEpsilon : ℤ)
    (localValue globalValue num : ℕ) : Except Refusal (Except Stop Locals) :=
  if 2 ^ 31 ≤ num + 1 then .error .intOverflow
  else if localEpsilon < 0 ∨ globalEpsilon < 0 then .error .invalidArgument
  else if localEpsilon > globalEpsilon ∨ localValue < globalValue then .error .wrongSetting
  else .ok (Locals.fill c fuel localEpsilon globalEpsilon localValue globalValue num)

/-- The places from one to `num` are written once each and no others, and the rank is behind
them. -/
structure Filled (num : ℕ) (s : Locals) : Prop where
  count : ∀ i, (s.data.map Prod.fst).count i = if 1 ≤ i ∧ i ≤ num then 1 else 0
  curRank : s.curRank = num + 1

/-! ### Counting -/

theorem orStop_eq_ok {α : Type} {r : Except String α} {a : α} (h : orStop r = .ok a) :
    r = .ok a := by
  cases r with
  | error what => cases h
  | ok b =>
    cases h
    rfl

structure Advanced (n : ℕ) (s s' : Locals) : Prop where
  curRank : s'.curRank = s.curRank + n
  data : s'.data.map Prod.fst = s.data.map Prod.fst ++ List.range' s.curRank n
  epsilons : s'.myGenerator.epsilons = s.myGenerator.epsilons

namespace Advanced

variable {c : Chance} {checked : Bool} {s s' t : Locals} {n : ℕ}

theorem refl (s : Locals) : Advanced 0 s s := ⟨rfl, by simp, rfl⟩

theorem trans {m : ℕ} (h : Advanced m s s') (h' : Advanced n s' t) : Advanced (m + n) s t where
  curRank := by rw [h'.curRank, h.curRank, Nat.add_assoc]
  data := by
    rw [h'.data, h.data, h.curRank, List.append_assoc]
    congr 1
    exact List.range'_append_1
  epsilons := h'.epsilons.trans h.epsilons

theorem put (key : ℤ) (globalPla : Hull) {myGenerator : ConstraintGenerator}
    (heps : myGenerator.epsilons = s.myGenerator.epsilons) :
    Advanced 1 s { s.put key with globalPla, myGenerator, curRank := s.curRank + 1 } where
  curRank := rfl
  data := by simp [Locals.put]
  epsilons := heps

theorem stepIf {ε : Type} {i j : ℕ} {f : Locals → Except ε Locals}
    (hf : ∀ s', f s = .ok s' → Advanced 1 s s') (h : Generator.stepIf (i ≠ j) f s = .ok s') :
    Advanced (if i = j then 0 else 1) s s' := by
  by_cases hij : i = j
  · rw [Generator.stepIf, if_neg (by simp [hij])] at h
    cases h
    rw [if_pos hij]
    exact refl s
  · rw [Generator.stepIf, if_pos (decide_eq_true hij)] at h
    rw [if_neg hij]
    exact hf s' h

theorem addChecked (h : Generator.stepIf checked Locals.addChecked s = .ok s') :
    ∃ globalPla, s' = { s with globalPla } := by
  cases checked with
  | true =>
    obtain ⟨r, -, h⟩ := bind_eq_ok.mp h
    cases h
    exact ⟨_, rfl⟩
  | false =>
    cases h
    exact ⟨s.globalPla, rfl⟩

theorem nextKey (h : s.nextKey c checked = .ok s') : Advanced 1 s s' := by
  obtain ⟨t, hadd, h⟩ := bind_eq_ok.mp h
  obtain ⟨globalPla, rfl⟩ := addChecked hadd
  cases h
  exact put _ _ ConstraintGenerator.generateKey_epsilons

theorem nextLocal {keys : ℕ} (h : s.nextLocal c checked keys = .ok s') : Advanced 1 s s' := by
  obtain ⟨t, hadd, h⟩ := bind_eq_ok.mp h
  obtain ⟨globalPla, rfl⟩ := addChecked hadd
  obtain ⟨myGenerator, hslope, h⟩ := bind_eq_ok.mp h
  cases h
  exact put _ _ ((ConstraintGenerator.generateLocalSlope_epsilons hslope).trans
    ConstraintGenerator.generateOutsideLocal_epsilons)

theorem enterGlobal {keys : ℕ} {key : ℤ} {pla : Hull} {g : ConstraintGenerator}
    (hg : g.epsilons = s.myGenerator.epsilons)
    (h : s.enterGlobal c keys key pla g = .ok s') : Advanced 1 s s' := by
  obtain ⟨r, -, h⟩ := bind_eq_ok.mp h
  obtain ⟨myGenerator, hslope, h⟩ := bind_eq_ok.mp h
  have heps := ConstraintGenerator.generateLocalSlope_epsilons hslope
  cases h
  exact put _ _ (heps.trans hg)

theorem nextGlobal {fuel keys : ℕ} (h : s.nextGlobal c fuel keys = .ok s') : Advanced 1 s s' := by
  simp only [Locals.nextGlobal] at h
  split at h
  · cases h
  · exact enterGlobal rfl (orStop_eq_ok h)

theorem keyLoop (h : s.keyLoop c checked n = .ok s') : Advanced n s s' := by
  induction n generalizing s with
  | zero =>
    cases h
    exact refl _
  | succ n ih =>
    obtain ⟨t, hkey, h⟩ := bind_eq_ok.mp h
    rw [Nat.add_comm]
    exact (nextKey hkey).trans (ih h)

theorem localLoop {localModels keys j : ℕ} (hj : j + n = localModels - 1)
    (h : s.localLoop c checked localModels keys n j = .ok s') :
    Advanced (n * (keys - 1) + (n - 1)) s s' := by
  induction n generalizing s j with
  | zero =>
    cases h
    simpa using refl _
  | succ n ih =>
    obtain ⟨t, hkeys, h⟩ := bind_eq_ok.mp h
    obtain ⟨u, hnext, h⟩ := bind_eq_ok.mp h
    have hall := ((keyLoop hkeys).trans (stepIf (fun _ => nextLocal) hnext)).trans
      (ih (by omega) h)
    have hcount : keys - 1 + (if j = localModels - 2 then 0 else 1) +
        (n * (keys - 1) + (n - 1)) = (n + 1) * (keys - 1) + (n + 1 - 1) := by
      rw [Nat.succ_mul]
      split <;> omega
    exact hcount ▸ hall

theorem fillGlobal {localModels keys keysInLast : ℕ} (hpos : 1 ≤ localModels)
    (h : s.fillGlobal c checked localModels keys keysInLast = .ok s') :
    Advanced ((localModels - 1) * (keys - 1 + 1) + (keysInLast - 1)) s s' := by
  obtain ⟨t, hlocals, h⟩ := bind_eq_ok.mp h
  obtain ⟨u, hnext, h⟩ := bind_eq_ok.mp h
  have hall := ((localLoop (Nat.zero_add _) hlocals).trans (stepIf (fun _ => nextLocal) hnext)).trans
    (keyLoop h)
  have hcount : (localModels - 1) * (keys - 1) + (localModels - 1 - 1) +
      (if localModels = 1 then 0 else 1) + (keysInLast - 1) =
      (localModels - 1) * (keys - 1 + 1) + (keysInLast - 1) := by
    rw [Nat.mul_succ]
    split <;> omega
  exact hcount ▸ hall

theorem globalLoop {fuel globalValue localModels keys keysInLast i : ℕ} (hpos : 1 ≤ localModels)
    (hi : i + n = globalValue - 1)
    (h : s.globalLoop c fuel globalValue localModels keys keysInLast n i = .ok s') :
    Advanced (n * ((localModels - 1) * (keys - 1 + 1) + (keysInLast - 1)) + (n - 1)) s s' := by
  induction n generalizing s i with
  | zero =>
    cases h
    simpa using refl _
  | succ n ih =>
    obtain ⟨t, hfill, h⟩ := bind_eq_ok.mp h
    obtain ⟨u, hnext, h⟩ := bind_eq_ok.mp h
    have hall := ((fillGlobal hpos (orStop_eq_ok hfill)).trans
      (stepIf (fun _ => nextGlobal) hnext)).trans
      (ih (by omega) h)
    generalize (localModels - 1) * (keys - 1 + 1) + (keysInLast - 1) = m at hall ⊢
    have hcount : m + (if i = globalValue - 2 then 0 else 1) + (n * m + (n - 1)) =
        (n + 1) * m + (n + 1 - 1) := by
      rw [Nat.succ_mul]
      split <;> omega
    exact hcount ▸ hall

end Advanced

theorem fillGlobal_count {k m : ℕ} (hm : 1 ≤ m) (hle : m ≤ k) :
    (m - 1) * (k / m - 1 + 1) + (k / m + k % m - 1) = k - 1 := by
  have hpos : 1 ≤ k / m := (Nat.one_le_div_iff hm).mpr hle
  have hdiv := Nat.div_add_mod k m
  obtain ⟨m, rfl⟩ := Nat.exists_eq_add_of_le' hm
  rw [Nat.add_sub_cancel, Nat.sub_add_cancel hpos]
  rw [Nat.succ_mul] at hdiv
  omega

theorem globalLoop_count {g k : ℕ} (hg : 1 ≤ g) (hk : 1 ≤ k) :
    (g - 1) * (k - 1) + (g - 1 - 1) + (if g = 1 then 0 else 1) = (g - 1) * k := by
  obtain ⟨k, rfl⟩ := Nat.exists_eq_add_of_le' hk
  rw [Nat.add_sub_cancel, Nat.mul_succ]
  split <;> omega

section Fill

variable {c : Chance} {fuel localValue globalValue num : ℕ} {localEpsilon globalEpsilon : ℤ}
  {s s' : Locals}

theorem start_spec {keys : ℕ} (h : Locals.start c localEpsilon globalEpsilon keys = .ok s) :
    s.curRank = 2 ∧ s.data.map Prod.fst = [1] ∧
      s.myGenerator.epsilons = (localEpsilon, globalEpsilon) := by
  obtain ⟨g, hslope, h⟩ := bind_eq_ok.mp h
  obtain ⟨r, -, h⟩ := bind_eq_ok.mp h
  cases h
  exact ⟨rfl, rfl, ConstraintGenerator.generateLocalSlope_epsilons hslope⟩

theorem nextGlobal_no_keys (hexact : c.Exact) (hlocal : 0 ≤ s.myGenerator.epsilons.1)
    (hglobal : 0 ≤ s.myGenerator.epsilons.2) : s.nextGlobal c fuel 0 ≠ .ok s' := by
  intro h
  simp only [Locals.nextGlobal] at h
  split at h
  · cases h
  next key pla _ =>
  obtain ⟨r, -, h⟩ := bind_eq_ok.mp (orStop_eq_ok h)
  obtain ⟨myGenerator, hslope, -⟩ := bind_eq_ok.mp h
  have horigin := ConstraintGenerator.atOrigin hexact
    (s.myGenerator.generateOutsideGlobal c s.curRank).2 key s.curRank
  obtain ⟨what, herror⟩ := ConstraintGenerator.generateLocalSlope_behind hexact horigin hlocal
    hglobal
  rw [Nat.cast_zero, add_zero, herror] at hslope
  cases hslope

/-- The last global segment has a key for each of its local models. -/
def EnoughKeys (localValue globalValue num : ℕ) : Prop :=
  localValue / globalValue + localValue % globalValue ≤ num / globalValue + num % globalValue

instance : Decidable (EnoughKeys localValue globalValue num) :=
  inferInstanceAs (Decidable (_ ≤ _))

theorem enoughKeys_of_exact (hexact : c.Exact) (hglobal : 1 ≤ globalValue) (hnum : localValue ≤ num)
    (heps : s.myGenerator.epsilons = (localEpsilon, globalEpsilon)) (h0 : 0 ≤ localEpsilon)
    (hle : localEpsilon ≤ globalEpsilon)
    (h : stepIf (globalValue ≠ 1) (Locals.nextGlobal c fuel
      ((num / globalValue + num % globalValue) /
        (localValue / globalValue + localValue % globalValue))) s = .ok s') :
    EnoughKeys localValue globalValue num := by
  by_contra hfew
  rw [Nat.div_eq_of_lt (not_le.mp hfew)] at h
  by_cases hone : globalValue = 1
  · subst hone
    simp only [EnoughKeys, Nat.div_one, Nat.mod_one] at hfew
    omega
  · rw [stepIf, if_pos (decide_eq_true hone)] at h
    exact nextGlobal_no_keys hexact (heps ▸ h0) (heps ▸ h0.trans hle) h

theorem fill_filled (hglobal : 1 ≤ globalValue) (hlocal : globalValue ≤ localValue)
    (hnum : localValue ≤ num) (h0 : 0 ≤ localEpsilon) (hle : localEpsilon ≤ globalEpsilon)
    (hkeysOrExact : EnoughKeys localValue globalValue num ∨ c.Exact)
    (h : Locals.fill c fuel localEpsilon globalEpsilon localValue globalValue num = .ok s) :
    Filled num s := by
  obtain ⟨s₁, hstart, h⟩ := bind_eq_ok.mp h
  obtain ⟨s₂, hloop, h⟩ := bind_eq_ok.mp h
  obtain ⟨s₃, hnext, h⟩ := bind_eq_ok.mp h
  obtain ⟨hrank, hdata, heps⟩ := start_spec (orStop_eq_ok hstart)
  have hmodels : 1 ≤ localValue / globalValue := (Nat.one_le_div_iff hglobal).mpr hlocal
  have hkeys : localValue / globalValue ≤ num / globalValue := Nat.div_le_div_right hnum
  have hbefore := Advanced.globalLoop hmodels (Nat.zero_add _) hloop
  have henough : EnoughKeys localValue globalValue num := hkeysOrExact.elim id fun hexact =>
    enoughKeys_of_exact hexact hglobal hnum (hbefore.epsilons.trans heps) h0 hle hnext
  have hall := (hbefore.trans (Advanced.stepIf (fun _ => Advanced.nextGlobal) hnext)).trans
    (Advanced.fillGlobal (hmodels.trans (Nat.le_add_right _ _)) (orStop_eq_ok h))
  rw [fillGlobal_count hmodels hkeys, globalLoop_count hglobal (hmodels.trans hkeys),
    fillGlobal_count (hmodels.trans (Nat.le_add_right _ _)) henough] at hall
  have hdiv : (globalValue - 1) * (num / globalValue) +
      (num / globalValue + num % globalValue) = num := by
    rw [← Nat.add_assoc, ← Nat.succ_mul, Nat.succ_eq_add_one, Nat.sub_add_cancel hglobal,
      Nat.div_add_mod]
  have hcount : (globalValue - 1) * (num / globalValue) +
      (num / globalValue + num % globalValue - 1) = num - 1 := by omega
  rw [hcount] at hall
  have hend : s.curRank = num + 1 := by
    rw [hall.curRank, hrank]
    omega
  refine ⟨fun i => ?_, hend⟩
  have hrange : [1] ++ List.range' 2 (num - 1) = List.range' 1 num := by
    obtain ⟨n, rfl⟩ := Nat.exists_eq_add_of_le' ((hglobal.trans hlocal).trans hnum)
    rfl
  rw [hall.data, hdata, hrank, hrange, List.count_range_1']
  refine if_congr ?_ rfl rfl
  omega

end Fill

end LearnedIndexFramework.Metric.Generator
