import Mathlib.Algebra.Order.Ring.Nat
import Mathlib.Data.List.Basic
import Mathlib.Tactic.Common

/-! The bitmap of a data node: which slots are filled, in words of 64 bits. -/

namespace LearnedIndexFramework.Alexol

abbrev Bitmap := List Bool

def Bitmap.bit (bits : Bitmap) (pos : ℕ) : Bool := bits.getD pos false

def Bitmap.word (bits : Bitmap) (w i : ℕ) : Bool := bits.bit (w * 64 + i)

section Word

variable (word : ℕ → Bool)

def allOnes : Bool := (List.range 64).all word

def anyOne : Bool := (List.range 64).any word

def popcnt : ℕ := (List.range 64).countP word

def tzcnt : ℕ := (List.range 64).findIdx word

def lzcnt : ℕ := (List.range 64).findIdx fun i => word (63 - i)

def inverse (i : ℕ) : Bool := !word i

end Word

/-- The first filled position from `pos` on, or the capacity.  The source looks for it word by
word. -/
def getNextFilledPosition (bits : Bitmap) (capacity pos : ℕ) (exclusive : Bool) : ℕ :=
  let pos := if exclusive then pos + 1 else pos
  ((List.range' pos (bits.length - pos)).find? bits.bit).getD capacity

section ClosestGap

variable (bits : Bitmap) (capacity size pos : ℕ)

def leftGap (w : ℕ) : ℕ := (w + 1) * 64 - lzcnt (inverse (bits.word w)) - 1

def rightGap (w : ℕ) : ℕ := w * 64 + tzcnt (inverse (bits.word w))

def nearerGap (left right : ℕ) : ℕ :=
  if pos - left ≤ right - pos ∨ capacity ≤ right then left else right

def gapAtDistance (distance : ℕ) : Option ℕ :=
  let bitmapPos := pos / 64
  let bitPos := pos - bitmapPos * 64
  let left := bitmapPos - distance
  let right := bitmapPos + distance
  if ¬ allOnes (bits.word left) ∧ ¬ allOnes (bits.word right) then
    some (nearerGap capacity pos (leftGap bits left) (rightGap bits right))
  else if ¬ allOnes (bits.word left) then
    if 32 < bitPos ∧ right + 1 < size ∧ ¬ allOnes (bits.word (right + 1)) then
      some (nearerGap capacity pos (leftGap bits left) (rightGap bits (right + 1)))
    else some (leftGap bits left)
  else if ¬ allOnes (bits.word right) then
    if rightGap bits right < capacity then
      if bitPos < 32 ∧ 0 < left ∧ ¬ allOnes (bits.word (left - 1)) then
        some (nearerGap capacity pos (leftGap bits (left - 1)) (rightGap bits right))
      else some (rightGap bits right)
    else none
  else none

/-- The search of `closest_gap` from a word without gaps. -/
def closestGapOutside : Option ℕ :=
  let bitmapPos := pos / 64
  let rightBitmapPos := (capacity - 1) / 64
  let maxLeft := bitmapPos
  let maxRight := rightBitmapPos - bitmapPos
  let maxBoth := min maxLeft maxRight
  let first := (List.range' 1 maxBoth).findSome? (gapAtDistance bits capacity size pos)
  let rest :=
    if maxLeft > maxRight then
      ((List.range (bitmapPos - maxBoth)).reverse.find? fun w => !allOnes (bits.word w)).map
        (leftGap bits)
    else
      ((List.range' (bitmapPos + maxBoth + 1) (rightBitmapPos - (bitmapPos + maxBoth))).find?
        fun w => !allOnes (bits.word w)).bind fun w =>
          if rightGap bits w ≥ capacity then none else some (rightGap bits w)
  first.or rest

def closestRightGapDistance : ℕ :=
  let bitmapPos := pos / 64
  let bitPos := pos - bitmapPos * 64
  let rightGaps := fun i => !(bits.word bitmapPos i || decide (i < bitPos))
  if anyOne rightGaps then tzcnt rightGaps - bitPos
  else if bitmapPos + 1 < size then
    64 + tzcnt (inverse (bits.word (bitmapPos + 1))) - bitPos
  else 64

def closestLeftGapDistance : ℕ :=
  let bitmapPos := pos / 64
  let bitPos := pos - bitmapPos * 64
  let leftGaps := fun i => inverse (bits.word bitmapPos) i && decide (i < bitPos)
  if anyOne leftGaps then bitPos - (63 - lzcnt leftGaps)
  else if 0 < bitmapPos then
    bitPos + lzcnt (inverse (bits.word (bitmapPos - 1))) + 1
  else 64

/-- The search of `closest_gap` within a word. -/
def closestGapInside : ℕ :=
  let rightDistance := closestRightGapDistance bits size pos
  let leftDistance := closestLeftGapDistance bits pos
  if rightDistance < leftDistance ∧ pos + rightDistance < capacity then pos + rightDistance
  else pos - leftDistance

def closestGap : Option ℕ :=
  let pos := min pos (capacity - 1)
  let bitmapPos := pos / 64
  if allOnes (bits.word bitmapPos) ∨ bitmapPos = size - 1 ∧
      popcnt (bits.word bitmapPos) = capacity - (size - 1) * 64 then
    closestGapOutside bits capacity size pos
  else some (closestGapInside bits capacity size pos)

end ClosestGap

/-! ### What the searches find -/

section Word

variable {word : ℕ → Bool}

theorem allOnes_eq_true_iff : allOnes word = true ↔ ∀ i, i < 64 → word i = true := by
  simp [allOnes, List.all_eq_true]

theorem anyOne_eq_false_iff : anyOne word = false ↔ ∀ i, i < 64 → word i = false := by
  simp [anyOne, List.any_eq_false]

theorem tzcnt_spec {word : ℕ → Bool} (h : ∃ i, i < 64 ∧ word i = true) :
    tzcnt word < 64 ∧ word (tzcnt word) = true ∧ ∀ i, i < tzcnt word → word i = false := by
  obtain ⟨i, hi, hword⟩ := h
  have hlt : tzcnt word < (List.range 64).length :=
    List.findIdx_lt_length_of_exists ⟨i, List.mem_range.mpr hi, hword⟩
  refine ⟨by simpa using hlt, ?_, ?_⟩
  · have hfound := List.findIdx_getElem (w := hlt)
    exact List.getElem_range (h := hlt) ▸ hfound
  · intro i hi
    have hnot := List.not_of_lt_findIdx hi
    rwa [List.getElem_range] at hnot

theorem lzcnt_eq : lzcnt word = tzcnt fun i => word (63 - i) := rfl

theorem lzcnt_spec (h : ∃ i, i < 64 ∧ word i = true) :
    lzcnt word < 64 ∧ word (63 - lzcnt word) = true ∧
      ∀ i, i < 64 → 63 - lzcnt word < i → word i = false := by
  obtain ⟨i, hi, hword⟩ := h
  have hreverse : ∃ j, j < 64 ∧ word (63 - j) = true :=
    ⟨63 - i, by omega, by rwa [Nat.sub_sub_self (by omega)]⟩
  obtain ⟨hlt, hone, hzero⟩ := tzcnt_spec hreverse
  refine ⟨hlt, hone, ?_⟩
  intro j hj hgt
  have hnot := hzero (63 - j) (by rw [← lzcnt_eq]; omega)
  rwa [Nat.sub_sub_self (by omega)] at hnot

theorem popcnt_eq_iff (word : ℕ → Bool) {n : ℕ} (hn : n ≤ 64) (hrest : ∀ i, n ≤ i → i < 64 → word i = false) :
    popcnt word = n ↔ ∀ i, i < n → word i = true := by
  have hsplit : List.range 64 = List.range n ++ (List.range (64 - n)).map (n + ·) := by
    rw [← List.range_add, Nat.add_sub_cancel' hn]
  have hzero : ((List.range (64 - n)).map (n + ·)).countP word = 0 := by
    simp only [List.countP_eq_zero, List.mem_map, List.mem_range]
    rintro _ ⟨i, hi, rfl⟩
    rw [hrest (n + i) (by omega) (by omega)]
    exact Bool.false_ne_true
  rw [popcnt, hsplit, List.countP_append, hzero, Nat.add_zero]
  conv_lhs => rhs; rw [← List.length_range (n := n)]
  rw [List.countP_eq_length]
  simp

end Word

structure IsNearGap (bits : Bitmap) (capacity pos gap : ℕ) : Prop where
  lt : gap < capacity
  empty : bits.bit gap = false
  left : ∀ j, gap < j → j ≤ pos → bits.bit j = true
  right : ∀ j, pos ≤ j → j < gap → bits.bit j = true

section ClosestGap

variable {bits : Bitmap} {capacity size pos : ℕ}

theorem exists_gap_of_not_allOnes {w : ℕ} (h : ¬ allOnes (bits.word w) = true) :
    ∃ i, i < 64 ∧ inverse (bits.word w) i = true := by
  rw [allOnes_eq_true_iff] at h
  push Not at h
  obtain ⟨i, hi, hgap⟩ := h
  exact ⟨i, hi, by rw [inverse, Bool.not_eq_true']; exact Bool.eq_false_iff.mpr hgap⟩

def Packed (bits : Bitmap) (capacity w : ℕ) : Prop :=
  ∀ j, w * 64 ≤ j → j < (w + 1) * 64 → j < capacity → bits.bit j = true

theorem packed_of_allOnes {w : ℕ} (h : allOnes (bits.word w) = true) : Packed bits capacity w := by
  intro j hle hlt _
  have hbit := allOnes_eq_true_iff.mp h (j - w * 64) (by omega)
  rwa [Bitmap.word, Nat.add_sub_cancel' hle] at hbit

theorem packed_of_le_rightGap {w : ℕ} (h : ¬ allOnes (bits.word w) = true)
    (hge : capacity ≤ rightGap bits w) : Packed bits capacity w := by
  intro j hle _ hj
  rw [rightGap] at hge
  have hrest := (tzcnt_spec (exists_gap_of_not_allOnes h)).2.2 (j - w * 64) (by omega)
  rwa [inverse, Bool.not_eq_false', Bitmap.word, Nat.add_sub_cancel' hle] at hrest

theorem isNearGap_leftGap {w : ℕ} (h : ¬ allOnes (bits.word w) = true) (hpos : pos < capacity)
    (hw : w < pos / 64) (hpacked : ∀ v, w < v → v ≤ pos / 64 → Packed bits capacity v) :
    IsNearGap bits capacity pos (leftGap bits w) := by
  obtain ⟨hlt, hgap, hrest⟩ := lzcnt_spec (exists_gap_of_not_allOnes h)
  have heq : leftGap bits w = w * 64 + (63 - lzcnt (inverse (bits.word w))) := by
    rw [leftGap]
    omega
  refine ⟨by omega, ?_, ?_, ?_⟩
  · rw [inverse, Bool.not_eq_true', Bitmap.word, ← heq] at hgap
    exact hgap
  · intro j hj hle
    rcases Nat.lt_or_ge j ((w + 1) * 64) with hin | hout
    case inl =>
      have hbit := hrest (j - w * 64) (by omega) (by omega)
      rwa [inverse, Bool.not_eq_false', Bitmap.word, Nat.add_sub_cancel' (by omega)] at hbit
    case inr => exact hpacked (j / 64) (by omega) (by omega) j (by omega) (by omega) (by omega)
  · intro j hge hlt
    omega

theorem isNearGap_rightGap {w : ℕ} (h : ¬ allOnes (bits.word w) = true) (hw : pos / 64 < w)
    (hpacked : ∀ v, pos / 64 ≤ v → v < w → Packed bits capacity v)
    (hin : rightGap bits w < capacity) : IsNearGap bits capacity pos (rightGap bits w) := by
  obtain ⟨hlt, hgap, hrest⟩ := tzcnt_spec (exists_gap_of_not_allOnes h)
  refine ⟨hin, ?_, ?_, ?_⟩
  · rw [inverse, Bool.not_eq_true'] at hgap
    exact hgap
  · intro j hj hle
    rw [rightGap] at hj
    omega
  · intro j hle hj
    rcases Nat.lt_or_ge j (w * 64) with hout | hin'
    case inl => exact hpacked (j / 64) (by omega) (by omega) j (by omega) (by omega) (by omega)
    case inr =>
      rw [rightGap] at hj
      have hbit := hrest (j - w * 64) (by omega)
      rwa [inverse, Bool.not_eq_false', Bitmap.word, Nat.add_sub_cancel' (by omega)] at hbit

theorem isNearGap_nearerGap {left right : ℕ} (hleft : IsNearGap bits capacity pos left)
    (hright : right < capacity → IsNearGap bits capacity pos right) :
    IsNearGap bits capacity pos (nearerGap capacity pos left right) := by
  rw [nearerGap]
  split
  case isTrue => exact hleft
  case isFalse h => exact hright (by omega)

theorem packed_of_gapAtDistance_none {d : ℕ} (h : gapAtDistance bits capacity size pos d = none) :
    Packed bits capacity (pos / 64 - d) ∧ Packed bits capacity (pos / 64 + d) := by
  simp only [gapAtDistance] at h
  split_ifs at h with h₁ h₂ h₃ h₄
  · exact ⟨packed_of_allOnes h₂, packed_of_allOnes h₃⟩
  · exact ⟨packed_of_allOnes h₂, packed_of_le_rightGap h₃ (not_lt.mp h₄)⟩

theorem isNearGap_of_gapAtDistance {d gap : ℕ}
    (h : gapAtDistance bits capacity size pos d = some gap)
    (hpos : pos < capacity) (hd : 0 < d) (hleft : d ≤ pos / 64)
    (hpacked : ∀ w, pos / 64 - d < w → w < pos / 64 + d → Packed bits capacity w) :
    IsNearGap bits capacity pos gap := by
  have hnearLeft (hgap : ¬ allOnes (bits.word (pos / 64 - d)) = true) :=
    isNearGap_leftGap hgap hpos (by omega) fun v hv hle => hpacked v hv (by omega)
  have hnearRight (hgap : ¬ allOnes (bits.word (pos / 64 + d)) = true) :=
    isNearGap_rightGap hgap (show pos / 64 < pos / 64 + d by omega) fun v hv hlt =>
      hpacked v (by omega) hlt
  simp only [gapAtDistance] at h
  split_ifs at h with h₁ h₂ h₃ h₄ h₅ h₆
  all_goals obtain rfl := Option.some.inj h
  · exact isNearGap_nearerGap (hnearLeft h₁.1) (hnearRight h₁.2)
  · refine isNearGap_nearerGap (isNearGap_leftGap h₅.2.2 hpos (by omega) ?_) (hnearRight h₃)
    intro v hv hle
    rcases Nat.lt_or_ge (pos / 64 - d) v with hlt | hge
    · exact hpacked v hlt (by omega)
    · exact (show v = pos / 64 - d by omega) ▸ packed_of_allOnes h₂
  · exact hnearRight h₃ h₄
  · refine isNearGap_nearerGap (hnearLeft h₂) (isNearGap_rightGap h₆.2.2 (by omega) ?_)
    have hfull : allOnes (bits.word (pos / 64 + d)) = true := by
      by_contra hgap
      exact h₁ ⟨h₂, hgap⟩
    intro v hv hlt
    rcases Nat.lt_or_ge v (pos / 64 + d) with hlt | hge
    · exact hpacked v (by omega) hlt
    · exact (show v = pos / 64 + d by omega) ▸ packed_of_allOnes hfull
  · exact hnearLeft h₂

theorem findSome?_range'_spec {f : ℕ → Option ℕ} {s n x : ℕ}
    (h : (List.range' s n).findSome? f = some x) :
    ∃ d, s ≤ d ∧ d < s + n ∧ f d = some x ∧ ∀ e, s ≤ e → e < d → f e = none := by
  induction n generalizing s with
  | zero => simp at h
  | succ n ih =>
    rw [List.range'_succ, List.findSome?_cons] at h
    cases hs : f s with
    | some y =>
      rw [hs] at h
      exact ⟨s, le_rfl, by omega, hs.trans h, fun e _ _ => by omega⟩
    | none =>
      rw [hs] at h
      obtain ⟨d, hle, hlt, hd, hbefore⟩ := ih h
      refine ⟨d, by omega, by omega, hd, ?_⟩
      intro e hse hed
      rcases Nat.eq_or_lt_of_le hse with rfl | hlt
      · exact hs
      · exact hbefore e hlt hed

theorem find?_reverse_range_spec {p : ℕ → Bool} {n w : ℕ}
    (h : (List.range n).reverse.find? p = some w) :
    w < n ∧ p w = true ∧ ∀ v, w < v → v < n → p v = false := by
  induction n with
  | zero => simp at h
  | succ n ih =>
    rw [List.range_succ, List.reverse_append, List.reverse_singleton, List.singleton_append,
      List.find?_cons] at h
    cases hn : p n with
    | true =>
      rw [hn] at h
      obtain rfl := Option.some.inj h
      exact ⟨by omega, hn, fun v _ _ => by omega⟩
    | false =>
      rw [hn] at h
      obtain ⟨hlt, hw, hafter⟩ := ih h
      refine ⟨by omega, hw, ?_⟩
      intro v hwv hvn
      rcases Nat.eq_or_lt_of_le (Nat.le_of_lt_succ hvn) with rfl | hlt
      · exact hn
      · exact hafter v hwv hlt

theorem exists_not_packed (hgap : ∃ j, j < capacity ∧ bits.bit j = false) :
    ∃ w, w ≤ (capacity - 1) / 64 ∧ ¬ Packed bits capacity w := by
  obtain ⟨j, hj, hfalse⟩ := hgap
  refine ⟨j / 64, by omega, fun hpacked => ?_⟩
  rw [hpacked j (by omega) (by omega) hj] at hfalse
  exact Bool.noConfusion hfalse

theorem packed_within {n w : ℕ} (hpacked : Packed bits capacity (pos / 64))
    (hnone : ∀ d, 1 ≤ d → d ≤ n → gapAtDistance bits capacity size pos d = none)
    (hleft : pos / 64 ≤ w + n) (hright : w ≤ pos / 64 + n) : Packed bits capacity w := by
  rcases lt_trichotomy w (pos / 64) with hlt | rfl | hgt
  · have hboth := packed_of_gapAtDistance_none (hnone (pos / 64 - w) (by omega) (by omega))
    exact (show pos / 64 - (pos / 64 - w) = w by omega) ▸ hboth.1
  · exact hpacked
  · have hboth := packed_of_gapAtDistance_none (hnone (w - pos / 64) (by omega) (by omega))
    exact (show pos / 64 + (w - pos / 64) = w by omega) ▸ hboth.2

theorem leftwards_spec {first : ℕ} (hpos : pos < capacity) (hfirst : first ≤ pos / 64)
    (hpacked : ∀ w, first ≤ w → w ≤ (capacity - 1) / 64 → Packed bits capacity w)
    (hgap : ∃ j, j < capacity ∧ bits.bit j = false) :
    ∃ gap, ((List.range first).reverse.find? fun w => !allOnes (bits.word w)).map (leftGap bits) =
      some gap ∧ IsNearGap bits capacity pos gap := by
  obtain ⟨u, hu, hnot⟩ := exists_not_packed hgap
  cases hfind : (List.range first).reverse.find? fun w => !allOnes (bits.word w) with
  | some w =>
    obtain ⟨hlt, hw, hafter⟩ := find?_reverse_range_spec hfind
    refine ⟨_, rfl, isNearGap_leftGap (by simpa using hw) hpos (by omega) ?_⟩
    intro v hwv hv
    rcases Nat.lt_or_ge v first with hout | hin
    · exact packed_of_allOnes (by simpa using hafter v hwv hout)
    · exact hpacked v hin (by omega)
  | none =>
    rw [List.find?_eq_none] at hfind
    refine absurd ?_ hnot
    rcases Nat.lt_or_ge u first with hout | hin
    · exact packed_of_allOnes
        (by simpa using hfind u (List.mem_reverse.mpr (List.mem_range.mpr hout)))
    · exact hpacked u hin hu

theorem rightwards_spec {first : ℕ} (hfirst : pos / 64 < first)
    (hpacked : ∀ w, w < first → Packed bits capacity w)
    (hgap : ∃ j, j < capacity ∧ bits.bit j = false) :
    ∃ gap, ((List.range' first ((capacity - 1) / 64 + 1 - first)).find?
      fun w => !allOnes (bits.word w)).bind (fun w =>
        if rightGap bits w ≥ capacity then none else some (rightGap bits w)) = some gap ∧
          IsNearGap bits capacity pos gap := by
  obtain ⟨u, hu, hnot⟩ := exists_not_packed hgap
  cases hfind : (List.range' first ((capacity - 1) / 64 + 1 - first)).find?
      fun w => !allOnes (bits.word w) with
  | some w =>
    obtain ⟨hw, hmem, hbefore⟩ := List.find?_range'_eq_some.mp hfind
    rw [Bool.not_eq_true', ← Bool.not_eq_true] at hw
    rw [List.mem_range'_1] at hmem
    have hall : ∀ v, v < w → Packed bits capacity v := by
      intro v hv
      rcases Nat.lt_or_ge v first with hin | hout
      · exact hpacked v hin
      · exact packed_of_allOnes (by simpa using hbefore v hout hv)
    have hin : rightGap bits w < capacity := by
      by_contra hout
      have hlast := (tzcnt_spec (exists_gap_of_not_allOnes hw)).1
      refine hnot ?_
      rcases Nat.lt_or_ge u w with hlt | hge
      · exact hall u hlt
      · have heq : u = w := by
          rw [rightGap] at hout
          omega
        exact heq ▸ packed_of_le_rightGap hw (not_lt.mp hout)
    refine ⟨rightGap bits w, ?_, isNearGap_rightGap hw (by omega) (fun v _ hv => hall v hv) hin⟩
    rw [Option.bind_some, if_neg (not_le.mpr hin)]
  | none =>
    rw [List.find?_range'_eq_none] at hfind
    refine absurd ?_ hnot
    rcases Nat.lt_or_ge u first with hin | hout
    · exact hpacked u hin
    · exact packed_of_allOnes (by simpa using hfind u hout (by omega))

theorem closestGapOutside_spec (hpos : pos < capacity) (hpacked : Packed bits capacity (pos / 64))
    (hgap : ∃ j, j < capacity ∧ bits.bit j = false) :
    ∃ gap, closestGapOutside bits capacity size pos = some gap ∧
      IsNearGap bits capacity pos gap := by
  rw [closestGapOutside]
  cases hfirst : (List.range' 1 (min (pos / 64) ((capacity - 1) / 64 - pos / 64))).findSome?
      (gapAtDistance bits capacity size pos) with
  | some gap =>
    obtain ⟨d, hle, hlt, hd, hbefore⟩ := findSome?_range'_spec hfirst
    refine ⟨gap, Option.some_or, isNearGap_of_gapAtDistance hd hpos (by omega) (by omega) ?_⟩
    intro w hleft hright
    exact packed_within (n := d - 1) hpacked (fun e he hed => hbefore e he (by omega)) (by omega)
      (by omega)
  | none =>
    rw [List.findSome?_eq_none_iff] at hfirst
    have hnone (d : ℕ) (hd : 1 ≤ d) (hle : d ≤ min (pos / 64) ((capacity - 1) / 64 - pos / 64)) :=
      hfirst d (List.mem_range'_1.mpr ⟨hd, by omega⟩)
    simp only [Option.none_or]
    split
    case isTrue hmore =>
      rw [min_eq_right hmore.le] at hnone ⊢
      refine leftwards_spec hpos (Nat.sub_le _ _) ?_ hgap
      intro w hw hlast
      exact packed_within hpacked hnone (by omega) (by omega)
    case isFalse hless =>
      rw [min_eq_left (by omega)] at hnone ⊢
      have hcount : (capacity - 1) / 64 - (pos / 64 + pos / 64) =
          (capacity - 1) / 64 + 1 - (pos / 64 + pos / 64 + 1) := by omega
      rw [hcount]
      refine rightwards_spec (by omega) ?_ hgap
      intro w hw
      exact packed_within hpacked hnone (by omega) (by omega)

theorem tzcnt_of_forall {word : ℕ → Bool} (h : ∀ i, i < 64 → word i = false) : tzcnt word = 64 := by
  rw [tzcnt, List.findIdx_eq_length.mpr]
  · exact List.length_range
  · intro i hi
    exact h i (List.mem_range.mp hi)

theorem closestRightGapDistance_spec (bits : Bitmap) (size pos : ℕ) :
    (bits.bit (pos + closestRightGapDistance bits size pos) = false ∧
      ∀ j, pos ≤ j → j < pos + closestRightGapDistance bits size pos → bits.bit j = true) ∨
    (64 ≤ closestRightGapDistance bits size pos ∧
      ∀ j, pos ≤ j → j < (pos / 64 + 1) * 64 → bits.bit j = true) := by
  rw [closestRightGapDistance]
  split
  case isTrue hany =>
    simp only [anyOne, List.any_eq_true, List.mem_range] at hany
    obtain ⟨hlt, hone, hzero⟩ := tzcnt_spec hany
    rw [Bool.not_eq_true', Bool.or_eq_false_iff, decide_eq_false_iff_not, Bitmap.word] at hone
    refine .inl ⟨?_, ?_⟩
    · convert hone.1 using 2
      omega
    intro j hge hj
    have hbefore := hzero (j - pos / 64 * 64) (by omega)
    rw [Bool.not_eq_false', Bool.or_eq_true, decide_eq_true_iff, Bitmap.word,
      Nat.add_sub_cancel' (by omega)] at hbefore
    exact hbefore.resolve_right (by omega)
  case isFalse hnone =>
    have hword : ∀ j, pos ≤ j → j < (pos / 64 + 1) * 64 → bits.bit j = true := by
      intro j hge hlt
      have hbit := anyOne_eq_false_iff.mp (Bool.eq_false_iff.mpr hnone) (j - pos / 64 * 64)
        (by omega)
      rw [Bool.not_eq_false', Bool.or_eq_true, decide_eq_true_iff, Bitmap.word,
        Nat.add_sub_cancel' (by omega)] at hbit
      exact hbit.resolve_right (by omega)
    split
    case isFalse hlast => exact .inr ⟨le_rfl, hword⟩
    case isTrue hnext =>
      by_cases hfull : allOnes (bits.word (pos / 64 + 1)) = true
      case pos =>
        have hall := allOnes_eq_true_iff.mp hfull
        rw [tzcnt_of_forall fun i hi => by rw [inverse, hall i hi]; rfl]
        exact .inr ⟨by omega, hword⟩
      case neg =>
        obtain ⟨hlt, hone, hzero⟩ := tzcnt_spec (exists_gap_of_not_allOnes hfull)
        rw [inverse, Bool.not_eq_true', Bitmap.word] at hone
        refine .inl ⟨?_, ?_⟩
        · convert hone using 2
          omega
        intro j hge hj
        rcases Nat.lt_or_ge j ((pos / 64 + 1) * 64) with hin | hout
        · exact hword j hge hin
        · have hbefore := hzero (j - (pos / 64 + 1) * 64) (by omega)
          rwa [inverse, Bool.not_eq_false', Bitmap.word, Nat.add_sub_cancel' hout] at hbefore

theorem closestLeftGapDistance_spec (bits : Bitmap) (pos : ℕ) :
    (0 < closestLeftGapDistance bits pos ∧ closestLeftGapDistance bits pos ≤ pos ∧
      bits.bit (pos - closestLeftGapDistance bits pos) = false ∧
        ∀ j, pos - closestLeftGapDistance bits pos < j → j < pos → bits.bit j = true) ∨
    (64 ≤ closestLeftGapDistance bits pos ∧
      ∀ j, pos / 64 * 64 ≤ j → j < pos → bits.bit j = true) := by
  rw [closestLeftGapDistance]
  split
  case isTrue hany =>
    simp only [anyOne, List.any_eq_true, List.mem_range] at hany
    obtain ⟨hlt, hone, hzero⟩ := lzcnt_spec hany
    rw [Bool.and_eq_true, decide_eq_true_iff, inverse, Bool.not_eq_true', Bitmap.word] at hone
    refine .inl ⟨by omega, by omega, ?_, ?_⟩
    · convert hone.1 using 2
      omega
    · intro j hgt hj
      have hafter := hzero (j - pos / 64 * 64) (by omega) (by omega)
      rw [Bool.and_eq_false_iff, decide_eq_false_iff_not, inverse, Bool.not_eq_false', Bitmap.word,
        Nat.add_sub_cancel' (by omega)] at hafter
      exact hafter.resolve_right (by omega)
  case isFalse hnone =>
    have hword : ∀ j, pos / 64 * 64 ≤ j → j < pos → bits.bit j = true := by
      intro j hge hlt
      have hbit := anyOne_eq_false_iff.mp (Bool.eq_false_iff.mpr hnone) (j - pos / 64 * 64)
        (by omega)
      rw [Bool.and_eq_false_iff, decide_eq_false_iff_not, inverse, Bool.not_eq_false', Bitmap.word,
        Nat.add_sub_cancel' (by omega)] at hbit
      exact hbit.resolve_right (by omega)
    split
    case isFalse hfirst => exact .inr ⟨le_rfl, hword⟩
    case isTrue hprev =>
      by_cases hfull : allOnes (bits.word (pos / 64 - 1)) = true
      case pos =>
        have hall := allOnes_eq_true_iff.mp hfull
        rw [lzcnt_eq, tzcnt_of_forall fun i hi => by rw [inverse, hall _ (by omega)]; rfl]
        exact .inr ⟨by omega, hword⟩
      case neg =>
        obtain ⟨hlt, hone, hzero⟩ := lzcnt_spec (exists_gap_of_not_allOnes hfull)
        rw [inverse, Bool.not_eq_true', Bitmap.word] at hone
        refine .inl ⟨by omega, by omega, ?_, ?_⟩
        · convert hone using 2
          omega
        · intro j hgt hj
          rcases Nat.lt_or_ge j (pos / 64 * 64) with hout | hin
          · have hafter := hzero (j - (pos / 64 - 1) * 64) (by omega) (by omega)
            rwa [inverse, Bool.not_eq_false', Bitmap.word, Nat.add_sub_cancel' (by omega)] at hafter
          · exact hword j hin hj

theorem closestGapInside_spec (hpos : pos < capacity)
    (hgap : ∃ j, pos / 64 * 64 ≤ j ∧ j < (pos / 64 + 1) * 64 ∧ j < capacity ∧ bits.bit j = false) :
    IsNearGap bits capacity pos (closestGapInside bits capacity size pos) := by
  obtain ⟨u, hge, hlt, hu, hfalse⟩ := hgap
  have hright := closestRightGapDistance_spec bits size pos
  have hleft := closestLeftGapDistance_spec bits pos
  rw [closestGapInside]
  generalize closestRightGapDistance bits size pos = r at hright ⊢
  generalize closestLeftGapDistance bits pos = l at hleft ⊢
  have hnot (hbit : bits.bit u = true) : False := by
    rw [hbit] at hfalse
    exact Bool.noConfusion hfalse
  split
  case isTrue hcond =>
    rcases hright with ⟨hempty, hrun⟩ | ⟨hfar, hrun⟩
    · exact ⟨hcond.2, hempty, fun j hgt hle => by omega, hrun⟩
    · refine (hnot ?_).elim
      rcases Nat.lt_or_ge u pos with hbefore | hafter
      · rcases hleft with ⟨-, hle, -, hfill⟩ | ⟨-, hfill⟩
        · exact hfill u (by omega) hbefore
        · exact hfill u hge hbefore
      · exact hrun u hafter hlt
  case isFalse hcond =>
    rcases hleft with ⟨hpositive, hle, hempty, hfill⟩ | ⟨hfar, hfill⟩
    · refine ⟨by omega, hempty, ?_, fun j hle hj => by omega⟩
      intro j hgt hj
      rcases Nat.eq_or_lt_of_le hj with rfl | hlt
      · rcases hright with ⟨-, hrun⟩ | ⟨-, hrun⟩
        · refine hrun j le_rfl ?_
          omega
        · exact hrun j le_rfl (by omega)
      · exact hfill j hgt hlt
    · refine (hnot ?_).elim
      rcases Nat.lt_or_ge u pos with hbefore | hafter
      · exact hfill u hge hbefore
      · rcases hright with ⟨-, hrun⟩ | ⟨-, hrun⟩
        · exact hrun u hafter (by omega)
        · exact hrun u hafter hlt

theorem closestGap_spec (pos : ℕ) (hsize : size = (capacity + 63) / 64)
    (hrest : ∀ j, capacity ≤ j → bits.bit j = false)
    (hgap : ∃ j, j < capacity ∧ bits.bit j = false) :
    ∃ gap, closestGap bits capacity size pos = some gap ∧
      IsNearGap bits capacity (min pos (capacity - 1)) gap := by
  have hcap : 0 < capacity := by
    obtain ⟨j, hj, -⟩ := hgap
    omega
  have hpos : min pos (capacity - 1) < capacity := by omega
  have hpop (hlast : min pos (capacity - 1) / 64 = size - 1) :=
    popcnt_eq_iff (bits.word (min pos (capacity - 1) / 64))
      (n := capacity - (size - 1) * 64) (by omega) (fun i hi _ => hrest _ (by omega))
  rw [closestGap]
  split
  case isTrue hfull =>
    refine closestGapOutside_spec hpos ?_ hgap
    rcases hfull with hall | ⟨hlast, hcount⟩
    · exact packed_of_allOnes hall
    · intro j hle _ hj
      have hbit := (hpop hlast).mp hcount (j - min pos (capacity - 1) / 64 * 64) (by omega)
      rwa [Bitmap.word, Nat.add_sub_cancel' hle] at hbit
  case isFalse hpart =>
    refine ⟨_, rfl, closestGapInside_spec hpos ?_⟩
    by_contra hnone
    push Not at hnone
    refine hpart ?_
    rcases Nat.lt_or_ge (min pos (capacity - 1) / 64) (size - 1) with hinner | hlast
    · refine .inl (allOnes_eq_true_iff.mpr fun i hi => ?_)
      exact Bool.not_eq_false _ ▸ hnone _ (by omega) (by omega) (by omega)
    · refine .inr ⟨by omega, (hpop (by omega)).mpr fun i hi => ?_⟩
      exact Bool.not_eq_false _ ▸ hnone _ (by omega) (by omega) (by omega)

end ClosestGap

end LearnedIndexFramework.Alexol
