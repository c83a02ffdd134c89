import LearnedIndexFramework.Alexol.Bitmap
import LearnedIndexFramework.Lib.RightmostOne

/-! The iterator over a data node: word by word through the bitmap, and bit by bit through a
word. -/

namespace LearnedIndexFramework.Alexol

open Lib

def Bitmap.data (bits : Bitmap) (w : ℕ) : BitVec 64 :=
  (BitVec.ofBoolListLE ((List.range 64).map (bits.word w))).setWidth 64

def getOffset (wordId : ℕ) (bit : BitVec 64) : ℕ := wordId * 64 + countOnes (bit - 1#64)

def zeroOut (data : BitVec 64) (bitPos : ℕ) : BitVec 64 := data &&& ~~~((1#64 <<< bitPos) - 1#64)

/-- `cur_bitmap_data_` has the bits of the word that are not visited yet.  At the end there is no
`cur_idx_`. -/
structure Iterator where
  curIdx : Option ℕ
  curBitmapIdx : ℕ
  curBitmapData : BitVec 64

section Iterate

variable (bits : Bitmap) (bitmapSize : ℕ)

def skipEmpty : ℕ → ℕ → BitVec 64 → Option (ℕ × BitVec 64)
  | 0, idx, data => if data = 0 then none else some (idx, data)
  | behind + 1, idx, data =>
    if data = 0 then skipEmpty behind (idx + 1) (bits.data (idx + 1)) else some (idx, data)

def Iterator.next (it : Iterator) : Iterator :=
  match skipEmpty bits (bitmapSize - (it.curBitmapIdx + 1)) it.curBitmapIdx it.curBitmapData with
  | none => ⟨none, bitmapSize, 0⟩
  | some (idx, data) =>
    ⟨some (getOffset idx (extractRightmostOne data)), idx, removeRightmostOne data⟩

/-- `initialize` at a position.  `none` is a word outside of the bitmap. -/
def Iterator.start (idx : ℤ) : Option Iterator :=
  let bitmapIdx := idx / 64
  if 0 ≤ bitmapIdx ∧ bitmapIdx < bitmapSize then
    let bitPos := (idx - bitmapIdx * 64).toNat
    let it : Iterator :=
      ⟨none, bitmapIdx.toNat, zeroOut (bits.data bitmapIdx.toNat) bitPos⟩
    some (it.next bits bitmapSize)
  else none

end Iterate

/-! ### What an iterator visits -/

def Bitmap.filled (bits : Bitmap) (lo hi : ℕ) : List ℕ :=
  (List.range' lo (hi - lo)).filter bits.bit

def ones (idx : ℕ) (data : BitVec 64) : List ℕ :=
  ((List.range 64).filter data.getLsbD).map (idx * 64 + ·)

section Iterator

variable (bits : Bitmap) (bitmapSize : ℕ) (it : Iterator)

def Iterator.remaining : List ℕ :=
  ones it.curBitmapIdx it.curBitmapData ++
    bits.filled ((it.curBitmapIdx + 1) * 64) (bitmapSize * 64)

def Iterator.visits : List ℕ :=
  match it.curIdx with
  | none => []
  | some i => i :: it.remaining bits bitmapSize

end Iterator

variable {bits : Bitmap} {bitmapSize lo mid hi idx : ℕ} {data : BitVec 64}

theorem filled_append (hlo : lo ≤ mid) (hhi : mid ≤ hi) :
    bits.filled lo mid ++ bits.filled mid hi = bits.filled lo hi := by
  rw [Bitmap.filled, Bitmap.filled, Bitmap.filled, ← List.filter_append]
  have happend := List.range'_append_1 (s := lo) (m := mid - lo) (n := hi - mid)
  rw [Nat.add_sub_cancel' hlo] at happend
  rw [happend]
  congr 2
  omega

theorem mem_filled {i : ℕ} : i ∈ bits.filled lo hi ↔ lo ≤ i ∧ i < hi ∧ bits.bit i = true := by
  rw [Bitmap.filled, List.mem_filter, List.mem_range'_1, ← and_assoc]
  refine and_congr_left fun _ => ?_
  omega

theorem getLsbD_data {i : ℕ} (hi : i < 64) :
    (bits.data idx).getLsbD i = bits.bit (idx * 64 + i) := by
  rw [Bitmap.data, BitVec.getLsbD_setWidth, BitVec.getLsbD_ofBoolListLE]
  simp [hi, List.getD_eq_getElem?_getD, Bitmap.word]

theorem ones_eq_filled {bitPos : ℕ} (hpos : bitPos ≤ 64)
    (hbits : ∀ i, i < 64 → data.getLsbD i = (bits.bit (idx * 64 + i) && decide (bitPos ≤ i))) :
    ones idx data = bits.filled (idx * 64 + bitPos) ((idx + 1) * 64) := by
  have hsplit : List.range 64 = List.range bitPos ++ List.range' bitPos (64 - bitPos) := by
    rw [List.range_eq_range', List.range_eq_range']
    have happend := List.range'_append_1 (s := 0) (m := bitPos) (n := 64 - bitPos)
    rw [Nat.zero_add, Nat.add_sub_cancel' hpos] at happend
    exact happend.symm
  have hbelow : (List.range bitPos).filter data.getLsbD = [] := by
    rw [List.filter_eq_nil_iff]
    intro i hi
    rw [List.mem_range] at hi
    rw [hbits i (by omega), decide_eq_false (by omega), Bool.and_false]
    exact Bool.false_ne_true
  have hfrom : (List.range' bitPos (64 - bitPos)).filter data.getLsbD =
      (List.range' bitPos (64 - bitPos)).filter (bits.bit ∘ (idx * 64 + ·)) := by
    refine List.filter_congr fun i hi => ?_
    rw [List.mem_range'_1] at hi
    rw [hbits i (by omega), decide_eq_true hi.1, Bool.and_true, Function.comp_apply]
  rw [ones, hsplit, List.filter_append, hbelow, List.nil_append, hfrom, ← List.filter_map,
    List.map_add_range', Bitmap.filled]
  congr 2
  omega

theorem ones_zeroOut {bitPos : ℕ} (hpos : bitPos < 64) :
    ones idx (zeroOut (bits.data idx) bitPos) =
      bits.filled (idx * 64 + bitPos) ((idx + 1) * 64) := by
  refine ones_eq_filled hpos.le fun i hi => ?_
  rw [zeroOut, BitVec.getLsbD_and, getLsbD_data hi, getLsbD_not_shiftLeft_sub_one hpos,
    decide_eq_true hi, Bool.true_and]

theorem ones_data : ones idx (bits.data idx) = bits.filled (idx * 64) ((idx + 1) * 64) := by
  refine ones_eq_filled (Nat.zero_le 64) fun i hi => ?_
  rw [getLsbD_data hi, decide_eq_true (Nat.zero_le i), Bool.and_true]

theorem ones_eq_cons (h : data ≠ 0) : ones idx data =
    getOffset idx (extractRightmostOne data) :: ones idx (removeRightmostOne data) := by
  obtain ⟨t, ht⟩ := exists_isRightmostOne h
  have hlt := ht.lt
  have hsplit : List.range 64 = List.range t ++ t :: List.range' (t + 1) (64 - (t + 1)) := by
    rw [← List.range'_succ, List.range_eq_range', List.range_eq_range']
    have happend := List.range'_append_1 (s := 0) (m := t) (n := 64 - (t + 1) + 1)
    rw [Nat.zero_add] at happend
    rw [happend]
    congr 1
    omega
  have hbelow (value : BitVec 64) (hzero : ∀ i, i < t → value.getLsbD i = false) :
      (List.range t).filter value.getLsbD = [] := by
    rw [List.filter_eq_nil_iff]
    intro i hi
    rw [hzero i (List.mem_range.mp hi)]
    exact Bool.false_ne_true
  have hfrom : (List.range' (t + 1) (64 - (t + 1))).filter (removeRightmostOne data).getLsbD =
      (List.range' (t + 1) (64 - (t + 1))).filter data.getLsbD := by
    refine List.filter_congr fun i hi => ?_
    rw [List.mem_range'_1] at hi
    rw [ht.getLsbD_remove, decide_eq_true (by omega), Bool.and_true]
  have hremoved : ∀ i, i ≤ t → (removeRightmostOne data).getLsbD i = false := by
    intro i hi
    rw [ht.getLsbD_remove]
    rcases Nat.eq_or_lt_of_le hi with heq | hlt
    · simp [heq]
    · rw [ht.zero i hlt, Bool.false_and]
  rw [ones, ones, hsplit, List.filter_append, List.filter_append, hbelow data ht.zero,
    hbelow _ fun i hi => hremoved i hi.le, List.nil_append, List.nil_append,
    List.filter_cons_of_pos ht.one, List.filter_cons_of_neg (by simp [hremoved t le_rfl]), hfrom,
    List.map_cons, getOffset, ht.countOnes_extract_sub_one]

theorem ones_zero : ones idx 0 = [] := by simp [ones]

inductive InFront (bits : Bitmap) (bitmapSize : ℕ) (positions : List ℕ) :
    Option (ℕ × BitVec 64) → Prop
  | none : positions = [] → InFront bits bitmapSize positions none
  | some {idx : ℕ} {data : BitVec 64} : data ≠ 0 → idx < bitmapSize →
      positions = ones idx data ++ bits.filled ((idx + 1) * 64) (bitmapSize * 64) →
      InFront bits bitmapSize positions (some (idx, data))

theorem skipEmpty_inFront {behind : ℕ} (hsize : idx + 1 + behind = bitmapSize) :
    InFront bits bitmapSize (ones idx data ++ bits.filled ((idx + 1) * 64) (bitmapSize * 64))
      (skipEmpty bits behind idx data) := by
  induction behind generalizing idx data with
  | zero =>
    rw [skipEmpty]
    by_cases hzero : data = 0
    · rw [if_pos hzero]
      refine .none ?_
      rw [hzero, ones_zero, List.nil_append, ← hsize, Bitmap.filled, Nat.add_zero, Nat.sub_self]
      rfl
    · rw [if_neg hzero]
      exact .some hzero (by omega) rfl
  | succ behind ih =>
    rw [skipEmpty]
    by_cases hzero : data = 0
    · rw [if_pos hzero, hzero, ones_zero, List.nil_append,
        ← filled_append (show (idx + 1) * 64 ≤ (idx + 1 + 1) * 64 by omega) (by omega), ← ones_data]
      exact ih (by omega)
    · rw [if_neg hzero]
      exact .some hzero (by omega) rfl

def Iterator.Inside (bitmapSize : ℕ) (it : Iterator) : Prop :=
  it.curIdx ≠ none → it.curBitmapIdx < bitmapSize

variable {it : Iterator}

theorem Iterator.next_spec (hidx : it.curBitmapIdx < bitmapSize) :
    (it.next bits bitmapSize).visits bits bitmapSize = it.remaining bits bitmapSize ∧
      (it.next bits bitmapSize).Inside bitmapSize := by
  have hfront := @skipEmpty_inFront bits bitmapSize it.curBitmapIdx it.curBitmapData
    (bitmapSize - (it.curBitmapIdx + 1)) (by omega)
  rw [Iterator.next, Iterator.remaining]
  generalize skipEmpty bits (bitmapSize - (it.curBitmapIdx + 1)) it.curBitmapIdx
    it.curBitmapData = r at hfront ⊢
  cases hfront with
  | none hnil =>
    rw [hnil]
    exact ⟨rfl, fun h => absurd rfl h⟩
  | some hne hlt heq =>
    rw [heq, ones_eq_cons hne]
    exact ⟨rfl, fun _ => hlt⟩

theorem Iterator.start_spec {pos : ℕ} (hpos : pos < bitmapSize * 64) :
    ∃ it, Iterator.start bits bitmapSize pos = some it ∧
      it.visits bits bitmapSize = bits.filled pos (bitmapSize * 64) ∧ it.Inside bitmapSize := by
  have hword : (pos : ℤ) / 64 = (pos / 64 : ℕ) := rfl
  have hbit : ((pos : ℤ) - (pos / 64 : ℕ) * 64).toNat = pos % 64 := by omega
  refine ⟨_, if_pos ⟨by omega, by omega⟩, ?_⟩
  simp only [hword, hbit, Int.toNat_natCast]
  obtain ⟨hvisits, hinside⟩ := @Iterator.next_spec bits bitmapSize
    ⟨none, pos / 64, zeroOut (bits.data (pos / 64)) (pos % 64)⟩ (show pos / 64 < _ by omega)
  have hlo : pos / 64 * 64 + pos % 64 = pos := by omega
  refine ⟨hvisits.trans ?_, hinside⟩
  rw [Iterator.remaining, ones_zeroOut (by omega), hlo]
  exact filled_append (show pos ≤ (pos / 64 + 1) * 64 by omega)
    (show (pos / 64 + 1) * 64 ≤ bitmapSize * 64 by omega)

theorem Iterator.start_neg (bits : Bitmap) (bitmapSize : ℕ) :
    Iterator.start bits bitmapSize (-1) = none := by
  rw [Iterator.start]
  exact if_neg fun h => absurd h.1 (by decide)

end LearnedIndexFramework.Alexol
