import LearnedIndexFramework.Lib.Fallible
import LearnedIndexFramework.Lib.Words
import LearnedIndexFramework.Metric.Model

/-! The two generators of `pgm_metric.h`.  Both write a key for every rank from one on, but the
array begins at zero: its first element is never assigned, and when the models divide the keys
evenly the last key is written behind the array. -/

namespace LearnedIndexFramework.Metric.PgmMetric

open Lib

structure Cell where
  key : Word
  assigned : Bool := false

structure Generation where
  optimalSegment : OptimalPiecewiseLinearModel
  array : ℕ → Cell
  steps : ℕ := 0

namespace Generation

def write (draw : ℕ → Word) (rank : ℕ) (s : Generation) : Generation :=
  { s with
    array := Function.update s.array rank { key := draw s.steps, assigned := true }
    steps := s.steps + 1 }

def addPoint (s : Generation) (key : Word) (rank : ℕ) : Except String Generation := do
  let (_, optimalSegment) ← s.optimalSegment.addPoint .uint64 key.val rank
  return { s with optimalSegment }

/-- One round of a loop over `j`.  Where `adds` is not set the key stays outside the model. -/
def place (draw : ℕ → Word) (adds : Bool) (rank : ℕ) (s : Generation) : Except String Generation :=
  let key := draw s.steps
  let s := s.write draw rank
  if adds then s.addPoint key (rank + 1) else .ok s

def placeAll (draw : ℕ → Word) (adds : Bool) : ℕ → ℕ → Generation → Except String Generation
  | 0, _, s => .ok s
  | n + 1, rank, s => do
    let s ← s.place draw adds rank
    placeAll draw adds n (rank + 1) s

def placeOutOfBound (draw : ℕ → Word) (rank : ℕ) (s : Generation) : Except String Generation :=
  let key := draw s.steps
  let s := s.write draw rank
  { s with optimalSegment := s.optimalSegment.reset }.addPoint key (rank + 1)

def placeRest (draw : ℕ → Word) (adds : Bool) (dataNum modelNum i : ℕ) (s : Generation) :
    Except String Generation :=
  let dataNumEveryModel := dataNum / modelNum
  if i = modelNum - 1 then
    placeAll draw adds (dataNum - dataNumEveryModel * modelNum) ((i + 1) * dataNumEveryModel) s
  else .ok s

def modelLoop (draw : ℕ → Word) (adds : Bool) (dataNum modelNum : ℕ) :
    ℕ → ℕ → Generation → Except String Generation
  | 0, _, s => .ok s
  | n + 1, i, s => do
    let dataNumEveryModel := dataNum / modelNum
    let s ← placeAll draw true (dataNumEveryModel - 1) (i * dataNumEveryModel + 1) s
    let s ← placeOutOfBound draw ((i + 1) * dataNumEveryModel) s
    let s ← placeRest draw adds dataNum modelNum i s
    modelLoop draw adds dataNum modelNum n (i + 1) s

def run (draw mem : ℕ → Word) (adds : Bool) (dataNum modelNum errorBound : ℕ) :
    Except String Generation := do
  let segment : OptimalPiecewiseLinearModel := { epsilon := errorBound }
  let (_, optimalSegment) ← segment.reset.addPoint .uint64 0 1
  modelLoop draw adds dataNum modelNum modelNum 0 {
    optimalSegment
    array := fun i => { key := mem i } }

def cells (s : Generation) (dataNum : ℕ) : List Cell := (List.range dataNum).map s.array

def arrange (s : Generation) (xs : List Cell) (i : ℕ) : Cell := (xs[i]?).getD (s.array i)

end Generation

section Generators

-- what the key-generating steps return one after another, what the array holds before them, and
-- `std::shuffle`
variable (draw mem : ℕ → Word) (shuffle : ∀ xs : List Cell, {ys : List Cell // ys.Perm xs})
  (dataNum modelNum errorBound : ℕ)

def PGMMetricDataGenerator : Except String (ℕ → Cell) := do
  let s ← Generation.run draw mem true dataNum modelNum errorBound
  return s.arrange (shuffle (s.cells dataNum)).1

/-- The left-over keys are not added to the model, and `PGM_metric` sorts the array. -/
def MSEPGMDataGenerator : Except String (ℕ → Cell) := do
  let s ← Generation.run draw mem false dataNum modelNum errorBound
  let _ ← PGMMetric ((s.cells dataNum).map fun cell => (cell.key.val : ℤ)) errorBound
  let sorted := (s.cells dataNum).insertionSort (fun a b => a.key ≤ b.key)
  return s.arrange (shuffle sorted).1

end Generators

/-- Every key is defined, and nothing is written behind the array. -/
def Defines (dataNum : ℕ) (r : Except String (ℕ → Cell)) : Prop :=
  ∃ array, r = .ok array ∧ ∀ i, (array i).assigned = true ↔ i < dataNum

namespace Generation

def Assigned (s : Generation) (i : ℕ) : Prop := (s.array i).assigned = true

section Writes

variable {draw mem : ℕ → Word} {adds : Bool} {s s' : Generation} {rank n : ℕ}

theorem write_assigned (draw : ℕ → Word) (s : Generation) (rank i : ℕ) :
    (s.write draw rank).Assigned i ↔ i = rank ∨ s.Assigned i := by
  rcases eq_or_ne i rank with rfl | hne
  · simp [Assigned, write]
  · simp [Assigned, write, hne]

theorem addPoint_array {key : Word} (h : s.addPoint key rank = .ok s') : s'.array = s.array := by
  obtain ⟨r, -, h⟩ := bind_eq_ok.mp h
  cases h
  rfl

theorem place_assigned (h : s.place draw adds rank = .ok s') (i : ℕ) :
    s'.Assigned i ↔ i = rank ∨ s.Assigned i := by
  rw [← write_assigned draw]
  simp only [place] at h
  split at h
  · rw [Assigned, addPoint_array h, Assigned]
  · cases h
    rfl

theorem placeAll_assigned (h : placeAll draw adds n rank s = .ok s') (i : ℕ) :
    s'.Assigned i ↔ (rank ≤ i ∧ i < rank + n) ∨ s.Assigned i := by
  induction n generalizing rank s with
  | zero =>
    cases h
    rw [or_iff_right (by omega)]
  | succ n ih =>
    obtain ⟨s₁, hplace, hrest⟩ := bind_eq_ok.mp h
    rw [ih hrest, place_assigned hplace, ← or_assoc]
    refine or_congr_left ?_
    omega

theorem placeOutOfBound_assigned (h : s.placeOutOfBound draw rank = .ok s') (i : ℕ) :
    s'.Assigned i ↔ i = rank ∨ s.Assigned i := by
  rw [← write_assigned draw, Assigned, addPoint_array h]
  rfl

theorem modelLoop_assigned {dataNum modelNum i : ℕ} (hn : i + n = modelNum)
    (hle : modelNum ≤ dataNum) (hs : ∀ k, s.Assigned k ↔ 1 ≤ k ∧ k ≤ i * (dataNum / modelNum))
    (h : modelLoop draw adds dataNum modelNum n i s = .ok s') (k : ℕ) :
    s'.Assigned k ↔ 1 ≤ k ∧ (k ≤ modelNum * (dataNum / modelNum) ∨ (0 < n ∧ k < dataNum)) := by
  induction n generalizing i s with
  | zero =>
    cases h
    obtain rfl : i = modelNum := hn
    rw [hs]
    simp
  | succ n ih =>
    obtain ⟨s₁, hinner, h⟩ := bind_eq_ok.mp h
    obtain ⟨s₂, hbound, h⟩ := bind_eq_ok.mp h
    obtain ⟨s₃, hrest, h⟩ := bind_eq_ok.mp h
    have hpos : 1 ≤ dataNum / modelNum := (Nat.one_le_div_iff (by omega)).mpr hle
    have hs₂ : ∀ k, s₂.Assigned k ↔ 1 ≤ k ∧ k ≤ (i + 1) * (dataNum / modelNum) := by
      intro k
      rw [placeOutOfBound_assigned hbound, placeAll_assigned hinner, hs, Nat.succ_mul]
      omega
    simp only [placeRest] at hrest
    split at hrest
    case isFalse hnot =>
      cases hrest
      rw [ih (by omega) hs₂ h]
      have hn' : 0 < n := by omega
      simp [hn']
    case isTrue hlast =>
      obtain rfl : n = 0 := by omega
      cases h
      have hmul : modelNum * (dataNum / modelNum) ≤ dataNum := Nat.mul_div_le dataNum modelNum
      obtain rfl : i + 1 = modelNum := by omega
      rw [placeAll_assigned hrest, hs₂, Nat.mul_comm (dataNum / (i + 1)), Nat.add_sub_cancel' hmul]
      have hone : 1 ≤ (i + 1) * (dataNum / (i + 1)) := Nat.mul_pos (Nat.succ_pos i) hpos
      omega

theorem run_assigned {dataNum modelNum errorBound : ℕ} (hpos : 1 ≤ modelNum)
    (hle : modelNum ≤ dataNum) (h : run draw mem adds dataNum modelNum errorBound = .ok s) (i : ℕ) :
    s.Assigned i ↔ 1 ≤ i ∧ (i < dataNum ∨ (i = dataNum ∧ modelNum ∣ dataNum)) := by
  obtain ⟨r, -, h⟩ := bind_eq_ok.mp h
  have hempty : ∀ k, ({ optimalSegment := r.2, array := fun i => { key := mem i } } :
      Generation).Assigned k ↔ 1 ≤ k ∧ k ≤ 0 * (dataNum / modelNum) := by
    intro k
    simp [Assigned]
    omega
  rw [modelLoop_assigned (Nat.zero_add modelNum) hle hempty h]
  have hmul : modelNum * (dataNum / modelNum) ≤ dataNum := Nat.mul_div_le dataNum modelNum
  have heven : modelNum * (dataNum / modelNum) = dataNum ↔ modelNum ∣ dataNum :=
    ⟨fun heq => ⟨_, heq.symm⟩, Nat.mul_div_cancel'⟩
  rw [← heven]
  omega

theorem exists_not_assigned {dataNum : ℕ} (hpos : 0 < dataNum) (hzero : ¬ s.Assigned 0)
    {xs : List Cell} (hcells : xs.Perm (s.cells dataNum)) :
    ∃ i < dataNum, ¬ (s.arrange xs i).assigned = true := by
  have hmem : s.array 0 ∈ xs :=
    hcells.mem_iff.mpr (List.mem_map_of_mem (List.mem_range.mpr hpos))
  obtain ⟨i, hi, heq⟩ := List.getElem_of_mem hmem
  refine ⟨i, ?_, ?_⟩
  · simpa [hcells.length_eq, cells] using hi
  · rw [arrange, List.getElem?_eq_getElem hi, Option.getD_some, heq]
    exact hzero

end Writes

end Generation

section Claims

variable (draw mem : ℕ → Word) (shuffle : ∀ xs : List Cell, {ys : List Cell // ys.Perm xs})
  (dataNum modelNum errorBound : ℕ)

/-- Neither generator defines the keys, whatever the steps return. -/
theorem dataGenerators_not_defines (hpos : 1 ≤ modelNum) (hle : modelNum ≤ dataNum) :
    ¬ Defines dataNum (PGMMetricDataGenerator draw mem shuffle dataNum modelNum errorBound) ∧
      ¬ Defines dataNum (MSEPGMDataGenerator draw mem shuffle dataNum modelNum errorBound) := by
  have hzero : ∀ adds s, Generation.run draw mem adds dataNum modelNum errorBound = .ok s →
      ¬ s.Assigned 0 := fun adds s h => by
    rw [Generation.run_assigned hpos hle h]
    omega
  constructor
  · rintro ⟨array, hok, hdefined⟩
    obtain ⟨s, hrun, hok⟩ := bind_eq_ok.mp hok
    cases hok
    obtain ⟨i, hi, hnot⟩ := Generation.exists_not_assigned (hpos.trans hle) (hzero _ s hrun) (shuffle _).2
    exact hnot ((hdefined i).mpr hi)
  · rintro ⟨array, hok, hdefined⟩
    obtain ⟨s, hrun, hok⟩ := bind_eq_ok.mp hok
    obtain ⟨-, -, hok⟩ := bind_eq_ok.mp hok
    cases hok
    obtain ⟨i, hi, hnot⟩ := Generation.exists_not_assigned (hpos.trans hle) (hzero _ s hrun)
      ((shuffle _).2.trans (List.perm_insertionSort (fun a b : Cell => a.key ≤ b.key) _))
    exact hnot ((hdefined i).mpr hi)

end Claims

theorem dataGenerators_not_defines_two_keys :
    ¬ Defines 2 (PGMMetricDataGenerator (.ofNat <| 5 * · + 5) 0 (fun xs => ⟨xs, .refl xs⟩) 2 1 1) ∧
      ¬ Defines 2 (MSEPGMDataGenerator (.ofNat <| 5 * · + 5) 0 (fun xs => ⟨xs, .refl xs⟩) 2 1 1) :=
  dataGenerators_not_defines _ 0 _ 2 1 1 (by decide) (by decide)

theorem PGMMetricDataGenerator_two_keys : ∃ array,
    PGMMetricDataGenerator (.ofNat <| 5 * · + 5) 0 (fun xs => ⟨xs, .refl xs⟩) 2 1 1 = .ok array ∧
      (array 0).assigned = false ∧ (array 2).assigned = true ∧ ¬ Defines 2 (.ok array) := by
  refine ⟨_, rfl, rfl, rfl, ?_⟩
  rintro ⟨array, hok, hdefined⟩
  obtain rfl := Except.ok.inj hok
  exact Bool.noConfusion ((hdefined 0).mpr (by decide))

end LearnedIndexFramework.Metric.PgmMetric
