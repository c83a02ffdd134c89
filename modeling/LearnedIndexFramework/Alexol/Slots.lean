import LearnedIndexFramework.Alexol.DataNode
import LearnedIndexFramework.Lib.Gapped
import Mathlib.Data.List.GetD

/-! What the loops over the slots of a data node write, and the arrays after the model-based
inserts. -/

namespace LearnedIndexFramework.Alexol

open Lib

section Slots

variable {α : Type} {xs : List α} {x d : α} {i j k n pos : ℕ}

theorem getD_set_of_lt (hi : i < xs.length) :
    (xs.set i x).getD k d = if k = i then x else xs.getD k d := by
  rw [List.getD_eq_getElem?_getD, List.getElem?_set, if_pos hi, List.getD_eq_getElem?_getD]
  rcases eq_or_ne k i with rfl | hne
  · simp
  · rw [if_neg hne.symm, if_neg hne]

@[simp] theorem length_copySlot : (copySlot xs i j).length = xs.length := by
  rw [copySlot]
  split
  · exact List.length_set
  · rfl

theorem getD_copySlot (hi : i < xs.length) (hj : j < xs.length) :
    (copySlot xs i j).getD k d = if k = i then xs.getD j d else xs.getD k d := by
  rw [copySlot, List.getElem?_eq_getElem hj]
  simp only [getD_set_of_lt hi, List.getD_eq_getElem _ _ hj]

@[simp] theorem length_shiftRight : (shiftRight xs pos n).length = xs.length := by
  induction n generalizing xs with
  | zero => rfl
  | succ n ih => rw [shiftRight, ih, length_copySlot]

theorem getD_shiftRight (h : pos + n < xs.length) : (shiftRight xs pos n).getD k d =
    if pos < k ∧ k ≤ pos + n then xs.getD (k - 1) d else xs.getD k d := by
  induction n generalizing xs with
  | zero => rw [shiftRight, if_neg (by omega)]
  | succ n ih =>
    rw [shiftRight, ih (by rw [length_copySlot]; omega), getD_copySlot (by omega) (by omega),
      getD_copySlot (by omega) (by omega)]
    split_ifs
    all_goals first | omega | rfl | skip
    congr 1
    omega

@[simp] theorem length_shiftLeft : (shiftLeft xs i n).length = xs.length := by
  induction n generalizing xs i with
  | zero => rfl
  | succ n ih => rw [shiftLeft, ih, length_copySlot]

theorem getD_shiftLeft (h : i + n < xs.length) : (shiftLeft xs i n).getD k d =
    if i ≤ k ∧ k < i + n then xs.getD (k + 1) d else xs.getD k d := by
  induction n generalizing xs i with
  | zero => rw [shiftLeft, if_neg (by omega)]
  | succ n ih =>
    rw [shiftLeft, ih (by rw [length_copySlot]; omega), getD_copySlot (by omega) (by omega),
      getD_copySlot (by omega) (by omega)]
    split_ifs
    all_goals first | omega | rfl | skip
    congr 1
    omega

@[simp] theorem length_fillSlots : (fillSlots xs x i n).length = xs.length := by
  induction n generalizing xs i with
  | zero => rfl
  | succ n ih => rw [fillSlots, ih, List.length_set]

theorem getD_fillSlots (h : i + n ≤ xs.length) : (fillSlots xs x i n).getD k d =
    if i ≤ k ∧ k < i + n then x else xs.getD k d := by
  induction n generalizing xs i with
  | zero => rw [fillSlots, if_neg (by omega)]
  | succ n ih =>
    rw [fillSlots, ih (by rw [List.length_set]; omega), getD_set_of_lt (by omega)]
    split_ifs <;> first | omega | rfl

@[simp] theorem length_fillGaps {bits : Bitmap} : (fillGaps bits x pos xs).length = xs.length := by
  induction pos generalizing xs with
  | zero => rfl
  | succ pos ih =>
    rw [fillGaps]
    split
    · rfl
    · rw [ih, List.length_set]

theorem getD_fillGaps {bits : Bitmap} {lo : ℕ} (h : pos ≤ xs.length) (hlo : lo ≤ pos)
    (hgaps : ∀ j, lo ≤ j → j < pos → bits.bit j = false)
    (hfirst : 0 < lo → bits.bit (lo - 1) = true) : (fillGaps bits x pos xs).getD k d =
      if lo ≤ k ∧ k < pos then x else xs.getD k d := by
  induction pos generalizing xs with
  | zero => rw [fillGaps, if_neg (by omega)]
  | succ pos ih =>
    rw [fillGaps]
    rcases Nat.eq_or_lt_of_le hlo with heq | hlt
    case inl =>
      have hpos : lo - 1 = pos := by omega
      rw [if_pos (hpos ▸ hfirst (by omega)), if_neg (by omega)]
    case inr =>
      rw [if_neg (by rw [hgaps pos (by omega) (by omega)]; exact Bool.false_ne_true),
        ih (by rw [List.length_set]; omega) (by omega) (fun j hj hjp => hgaps j hj (by omega)),
        getD_set_of_lt (by omega)]
      split_ifs <;> first | omega | rfl

end Slots

section Bits

variable {bits : Bitmap} {pos k : ℕ} {b : Bool}

theorem bit_set (h : pos < bits.length) :
    Bitmap.bit (bits.set pos b) k = if k = pos then b else bits.bit k := getD_set_of_lt h

theorem count_set_true (h : pos < bits.length) (hgap : bits.bit pos = false) :
    (bits.set pos true).count true = bits.count true + 1 := by
  rw [Bitmap.bit, List.getD_eq_getElem _ _ h] at hgap
  rw [List.count_set h, hgap]
  rfl

theorem count_set_false (bits : Bitmap) (h : pos < bits.length) :
    (bits.set pos false).count true + (bits.bit pos).toNat = bits.count true := by
  rw [Bitmap.bit, List.getD_eq_getElem _ _ h, List.count_set h]
  cases hbit : bits[pos] with
  | false => simp
  | true =>
    have hpos : 0 < bits.count true := List.count_pos_iff.mpr (hbit ▸ List.getElem_mem h)
    simp only [BEq.rfl, ↓reduceIte, Bool.toNat_true]
    simp
    omega

theorem getNextFilledPosition_spec {capacity : ℕ} (hlength : capacity ≤ bits.length)
    (hrest : ∀ i, capacity ≤ i → bits.bit i = false) (hpos : pos < capacity) :
    pos < getNextFilledPosition bits capacity pos true ∧
      getNextFilledPosition bits capacity pos true ≤ capacity ∧
        ∀ i, pos < i → i < getNextFilledPosition bits capacity pos true → bits.bit i = false := by
  simp only [getNextFilledPosition, ↓reduceIte]
  cases hfind : (List.range' (pos + 1) (bits.length - (pos + 1))).find? bits.bit with
  | some j =>
    obtain ⟨hj, hmem, hbefore⟩ := List.find?_range'_eq_some.mp hfind
    rw [List.mem_range'_1] at hmem
    refine ⟨by rw [Option.getD_some]; omega, ?_, ?_⟩
    · rw [Option.getD_some]
      by_contra hgt
      rw [hrest j (by omega)] at hj
      exact Bool.noConfusion hj
    · intro i hi hij
      exact Bool.not_eq_true' _ ▸ hbefore i hi hij
  | none =>
    rw [List.find?_range'_eq_none] at hfind
    refine ⟨hpos, le_rfl, ?_⟩
    intro i hi hic
    rw [Option.getD_none] at hic
    exact Bool.not_eq_true' _ ▸ hfind i hi (by omega)

end Bits

section Erase

variable {K : Type} [LinearOrder K] [OrderTop K]

structure Erased (key next : K) (pos lo : ℕ) (keys : List K) (bits : Bitmap)
    (r : List K × Bitmap × ℕ) : Prop where
  le : lo ≤ pos
  run : ∀ i, lo ≤ i → i < pos → keys.getD i ⊤ = key
  first : 0 < lo → keys.getD (lo - 1) ⊤ ≠ key
  getD : ∀ i, r.1.getD i ⊤ = if lo ≤ i ∧ i < pos then next else keys.getD i ⊤
  bit : ∀ i, r.2.1.bit i = if lo ≤ i ∧ i < pos then false else bits.bit i
  count : r.2.1.count true + r.2.2 = bits.count true
  keysLength : r.1.length = keys.length
  bitsLength : r.2.1.length = bits.length

theorem erased_self (key next : K) (pos : ℕ) (keys : List K) (bits : Bitmap)
    (hfirst : 0 < pos → keys.getD (pos - 1) ⊤ ≠ key) :
    Erased key next pos pos keys bits (keys, bits, 0) where
  le := le_rfl
  run i hi hlt := by omega
  first := hfirst
  getD i := by rw [if_neg (by omega)]
  bit i := by rw [if_neg (by omega)]
  count := rfl
  keysLength := rfl
  bitsLength := rfl

theorem eraseFrom_spec (key next : K) {pos : ℕ} (keys : List K) (bits : Bitmap)
    (hkeys : pos ≤ keys.length) (hbits : pos ≤ bits.length) :
    ∃ lo, Erased key next pos lo keys bits (DataNode.eraseFrom key next pos keys bits) := by
  induction pos generalizing keys bits with
  | zero => exact ⟨0, erased_self key next 0 keys bits fun h => by omega⟩
  | succ pos ih =>
    have hread : keys[pos]? = some (keys.getD pos ⊤) := by
      rw [List.getD_eq_getElem _ _ (by omega), List.getElem?_eq_getElem]
    rw [DataNode.eraseFrom]
    split
    case isFalse hne =>
      refine ⟨pos + 1, erased_self key next (pos + 1) keys bits fun _ heq => hne ?_⟩
      rw [hread, ← heq, Nat.add_sub_cancel]
    case isTrue heq =>
      rw [hread, Option.some_inj] at heq
      obtain ⟨lo, h⟩ := ih (keys.set pos next) (bits.set pos false)
        (by rw [List.length_set]; omega) (by rw [List.length_set]; omega)
      have hlo := h.le
      refine ⟨lo, by omega, ?_, ?_, ?_, ?_, ?_, ?_, ?_⟩
      · intro i hi hlt
        rcases Nat.eq_or_lt_of_le (Nat.le_of_lt_succ hlt) with rfl | hlt
        · exact heq
        · have hold := h.run i hi hlt
          rwa [getD_set_of_lt (by omega), if_neg (by omega)] at hold
      · intro hpos
        have hold := h.first hpos
        rwa [getD_set_of_lt (by omega), if_neg (by omega)] at hold
      · intro i
        rw [h.getD, getD_set_of_lt (by omega)]
        split_ifs <;> first | omega | rfl
      · intro i
        rw [h.bit, bit_set (by omega)]
        split_ifs <;> first | omega | rfl
      · have hcount := h.count
        have hold := count_set_false bits (show pos < bits.length by omega)
        simp only
        omega
      · rw [h.keysLength, List.length_set]
      · rw [h.bitsLength, List.length_set]

end Erase

/-! ### Model-based inserts -/

section Place

variable {K P : Type} [LinearOrder K] [OrderTop K]

def Arrays.key (s : Arrays K P) (i : ℕ) : K := s.keySlots.getD i ⊤

structure Placed (capacity : ℕ) (s : Arrays K P) (next n : ℕ) : Prop where
  keys : s.keySlots.length = capacity
  payloads : s.payloadSlots.length = capacity
  bits : s.bitmap.length = 64 * bitmapSizeFor capacity
  gapped : GappedTo s.key s.bitmap.bit next
  rest : ∀ i, next ≤ i → s.bitmap.bit i = false
  count : s.bitmap.count true = n
  le : next ≤ capacity

variable {capacity next n pos : ℕ} {s : Arrays K P} {entry : K × P} {entries : List (K × P)}

theorem le_bits (capacity : ℕ) : capacity ≤ 64 * bitmapSizeFor capacity := by
  rw [bitmapSizeFor]
  omega

theorem placed_fresh (c : Choice K P) (capacity : ℕ) :
    Placed capacity (Arrays.fresh c capacity) 0 0 where
  keys := by simp [Arrays.fresh]
  payloads := by simp [Arrays.fresh]
  bits := by simp [Arrays.fresh]
  gapped := gappedTo_zero
  rest i _ := by
    rw [Arrays.fresh, Bitmap.bit, List.getD_eq_getElem?_getD, List.getElem?_replicate]
    split <;> rfl
  count := by simp [Arrays.fresh, List.count_replicate]
  le := Nat.zero_le _

theorem Placed.put (h : Placed capacity s next n) (entry : K × P) (hnext : next ≤ pos) (hpos : pos < capacity)
    (hle : 0 < next → s.key (next - 1) ≤ entry.1) :
    Placed capacity (({ s with keySlots := fillSlots s.keySlots entry.1 next (pos - next) }
      : Arrays K P).put pos entry) (pos + 1) (n + 1) ∧
    (({ s with keySlots := fillSlots s.keySlots entry.1 next (pos - next) }
      : Arrays K P).put pos entry).key pos = entry.1 := by
  have hkeys := h.keys
  have hbits : pos < s.bitmap.length := by
    rw [h.bits]
    exact hpos.trans_le (le_bits capacity)
  have hkey : ∀ i, (({ s with keySlots := fillSlots s.keySlots entry.1 next (pos - next) }
      : Arrays K P).put pos entry).key i = if next ≤ i ∧ i ≤ pos then entry.1 else s.key i := by
    intro i
    rw [Arrays.key, Arrays.put, getD_set_of_lt (by rw [length_fillSlots]; omega),
      getD_fillSlots (by omega), Arrays.key]
    split_ifs <;> first | omega | rfl
  refine ⟨⟨?_, ?_, ?_, ?_, ?_, ?_, hpos⟩, ?_⟩
  · rw [Arrays.put, List.length_set, length_fillSlots, h.keys]
  · rw [Arrays.put, List.length_set, h.payloads]
  · rw [Arrays.put, List.length_set, h.bits]
  · refine h.gapped.extend hle ?_ ?_
    · intro i hi
      rw [hkey]
      split_ifs <;> first | omega | rfl
    · intro i _
      exact bit_set hbits
  · intro i hi
    rw [Arrays.put, bit_set hbits, if_neg (by omega), h.rest i (by omega)]
  · rw [Arrays.put, count_set_true hbits (h.rest pos hnext), h.count]
  · rw [hkey, if_pos ⟨hnext, le_rfl⟩]

theorem Placed.putAll (h : Placed capacity s next n) (hroom : next + entries.length ≤ capacity)
    (hsorted : entries.Pairwise fun a b => a.1 ≤ b.1)
    (hle : ∀ e ∈ entries, 0 < next → s.key (next - 1) ≤ e.1) :
    Placed capacity (putAll entries next s) (next + entries.length) (n + entries.length) := by
  induction entries generalizing s next n with
  | nil => exact h
  | cons entry entries ih =>
    rw [List.length_cons] at hroom ⊢
    obtain ⟨hput, hkey⟩ := h.put entry le_rfl (by omega) (hle entry List.mem_cons_self)
    rw [Nat.sub_self] at hput hkey
    have hrest := ih hput (by omega) (List.pairwise_cons.mp hsorted).2 (by
      intro e he _
      rw [Nat.add_sub_cancel]
      exact hkey.trans_le ((List.pairwise_cons.mp hsorted).1 e he))
    rw [Alexol.putAll, ← Nat.add_assoc, Nat.add_right_comm, ← Nat.add_assoc n, Nat.add_right_comm n]
    exact hrest

theorem Placed.place (model : K → ℤ) (h : Placed capacity s next n)
    (hroom : next + entries.length ≤ capacity)
    (hsorted : entries.Pairwise fun a b => a.1 ≤ b.1)
    (hle : ∀ e ∈ entries, 0 < next → s.key (next - 1) ≤ e.1) :
    Placed capacity (Alexol.place model capacity entries next entries.length s).1
      (Alexol.place model capacity entries next entries.length s).2 (n + entries.length) := by
  induction entries generalizing s next n with
  | nil => exact h
  | cons entry entries ih =>
    rw [List.length_cons] at hroom ⊢
    simp only [Alexol.place]
    split
    case isTrue hfew =>
      have hpos : capacity - (entries.length + 1) < capacity := by omega
      obtain ⟨hput, hkey⟩ := h.put entry (show next ≤ capacity - (entries.length + 1) by omega)
        hpos (hle entry List.mem_cons_self)
      have hrest := hput.putAll
        (show capacity - (entries.length + 1) + 1 + entries.length ≤ capacity by omega) (List.pairwise_cons.mp hsorted).2
        (by
          intro e he _
          rw [Nat.add_sub_cancel]
          exact hkey.trans_le ((List.pairwise_cons.mp hsorted).1 e he))
      have hend : capacity - (entries.length + 1) + 1 + entries.length = capacity := by omega
      rw [hend, Nat.add_right_comm] at hrest
      exact hrest
    case isFalse hmany =>
      obtain ⟨hput, hkey⟩ := h.put entry
        (show next ≤ max (model entry.1).toNat next by omega) (by omega) (hle entry List.mem_cons_self)
      have hrest := ih hput (by omega) (List.pairwise_cons.mp hsorted).2 (by
        intro e he _
        rw [Nat.add_sub_cancel]
        exact hkey.trans_le ((List.pairwise_cons.mp hsorted).1 e he))
      rw [Nat.add_sub_cancel, ← Nat.add_assoc, Nat.add_right_comm]
      exact hrest

end Place

end LearnedIndexFramework.Alexol
