import LearnedIndexFramework.Alexol.Slots

/-! The arrays of a data node after an insertion. -/

namespace LearnedIndexFramework.Alexol

open Lib

section Sound

variable {K P : Type} [LinearOrder K] [OrderTop K]

structure Sound (capacity : ℕ) (s : Arrays K P) (n : ℕ) : Prop where
  keys : s.keySlots.length = capacity
  payloads : s.payloadSlots.length = capacity
  bits : s.bitmap.length = 64 * bitmapSizeFor capacity
  gapped : Gapped s.key s.bitmap.bit
  rest : ∀ i, capacity ≤ i → s.bitmap.bit i = false
  count : s.bitmap.count true = n

variable {capacity n : ℕ} {s : Arrays K P}

theorem Sound.lt_bits (h : Sound capacity s n) {i : ℕ} (hi : i < capacity) :
    i < s.bitmap.length := by
  rw [h.bits]
  exact hi.trans_le (le_bits capacity)

theorem Sound.key_eq_top (h : Sound capacity s n) {i : ℕ} (hi : capacity ≤ i) : s.key i = ⊤ :=
  List.getD_eq_default _ _ (h.keys ▸ hi)

theorem Sound.getElem?_key (h : Sound capacity s n) {i : ℕ} (hi : i < capacity) :
    s.keySlots[i]? = some (s.key i) := by
  rw [Arrays.key, List.getD_eq_getElem _ _ (h.keys ▸ hi), List.getElem?_eq_getElem]

theorem Sound.exists_gap (h : Sound capacity s n) (hn : n < capacity) :
    ∃ i, i < capacity ∧ s.bitmap.bit i = false := by
  by_contra hnone
  push Not at hnone
  have htake : (s.bitmap.take capacity).count true = capacity := by
    rw [List.count_eq_length.mpr, List.length_take, min_eq_left]
    · rw [h.bits]
      exact le_bits capacity
    · intro b hb
      obtain ⟨i, hi, rfl⟩ := List.mem_iff_getElem.mp hb
      rw [List.length_take] at hi
      have hbit := hnone i (by omega)
      rw [Bitmap.bit, List.getD_eq_getElem _ _ (by omega)] at hbit
      rw [List.getElem_take]
      exact (Bool.eq_true_of_not_eq_false hbit).symm
  have hle : (s.bitmap.take capacity).count true ≤ s.bitmap.count true :=
    (List.take_sublist capacity s.bitmap).count_le true
  rw [h.count, htake] at hle
  omega

theorem placed_sound {next : ℕ} (h : Placed capacity s next n) :
    Sound capacity { s with keySlots := fillSlots s.keySlots ⊤ next (capacity - next) } n where
  keys := by rw [length_fillSlots, h.keys]
  payloads := h.payloads
  bits := h.bits
  gapped := by
    have hle := h.le
    have hkeys := h.keys
    have hkey : ∀ i, (fillSlots s.keySlots ⊤ next (capacity - next)).getD i ⊤ =
        if next ≤ i then ⊤ else s.key i := by
      intro i
      rw [getD_fillSlots (by omega)]
      split_ifs
      · rfl
      · omega
      · exact List.getD_eq_default _ _ (by omega)
      · rfl
    refine GappedTo.gapped (n := next) ⟨?_, ?_, h.gapped.last⟩ fun i hi => ?_
    · intro i hi
      rw [Arrays.key, Arrays.key, hkey, hkey, if_neg (by omega), if_neg (by omega)]
      exact h.gapped.le_succ i hi
    · intro i hi hgap
      rw [Arrays.key, Arrays.key, hkey, hkey, if_neg (by omega), if_neg (by omega)]
      exact h.gapped.gap i hi hgap
    · rw [Arrays.key, hkey, if_pos hi]
  rest i hi := h.rest i (h.le.trans hi)
  count := h.count

theorem layOut_sound (c : Choice K P) (model : K → ℤ) {entries : List (K × P)}
    (hroom : entries.length ≤ capacity) (hsorted : entries.Pairwise fun a b => a.1 ≤ b.1) :
    Sound capacity (layOut model capacity entries (Arrays.fresh c capacity)) entries.length := by
  have hplaced := (placed_fresh c capacity).place model (by rwa [Nat.zero_add]) hsorted fun _ _ h => absurd h (lt_irrefl 0)
  rw [Nat.zero_add] at hplaced
  exact placed_sound hplaced

end Sound

namespace DataNode

variable {K P : Type} [LinearOrder K] [OrderTop K]

def arrays (node : DataNode K P) : Arrays K P := ⟨node.keySlots, node.payloadSlots, node.bitmap⟩

def withArrays (node : DataNode K P) (s : Arrays K P) : DataNode K P :=
  { node with keySlots := s.keySlots, payloadSlots := s.payloadSlots, bitmap := s.bitmap }

variable {node : DataNode K P} {key : K} {payload : P} {n : ℕ}

theorem search_spec {q : K → Bool} (hq : ∀ x y, x ≤ y → q x = true → q y = true)
    (h : Sound node.dataCapacity node.arrays n) {m : ℕ} (hm : m < node.dataCapacity) :
    ∃ b, exponentialSearch (fun i => node.keySlots[i]?.map q) node.dataCapacity m = some b ∧
      IsBound (fun i => q (node.arrays.key i)) node.dataCapacity b := by
  refine exponentialSearch_eq ?_ ?_ hm
  · intro i hi
    have hslot : node.keySlots[i]? = some (node.arrays.key i) := h.getElem?_key hi
    rw [hslot, Option.map_some]
  · intro i j hij _ hi
    exact hq _ _ (h.gapped.mono hij) hi

theorem exponentialSearchUpperBound_spec (key : K)
    (h : Sound node.dataCapacity node.arrays n) {m : ℕ} (hm : m < node.dataCapacity) :
    ∃ b, node.exponentialSearchUpperBound m key = some b ∧
      b ≤ node.dataCapacity ∧ (∀ i, i < b → node.arrays.key i ≤ key) ∧
        ∀ i, b ≤ i → key ≤ node.arrays.key i := by
  have hmono : ∀ x y : K, x ≤ y → decide (x > key) = true → decide (y > key) = true := by
    intro x y hxy hx
    rw [decide_eq_true_iff] at hx ⊢
    exact lt_of_lt_of_le hx hxy
  obtain ⟨b, heq, hbound⟩ := search_spec hmono h hm
  refine ⟨b, heq, hbound.le, ?_, ?_⟩
  · intro i hi
    exact not_lt.mp (of_decide_eq_false (hbound.below i hi))
  · intro i hi
    rcases Nat.lt_or_ge i node.dataCapacity with hlt | hge
    · exact (of_decide_eq_true (hbound.above i hi hlt)).le
    · rw [h.key_eq_top hge]
      exact le_top

omit [LinearOrder K] [OrderTop K] in
theorem predictPosition_lt (key : K) (hcap : 0 < node.dataCapacity) :
    node.predictPosition key < node.dataCapacity := by
  rw [predictPosition]
  omega

theorem findInsertPosition_spec (key : K) (h : Sound node.dataCapacity node.arrays n)
    (hcap : 0 < node.dataCapacity) : ∃ p b, node.findInsertPosition key = some (p, b) ∧
      b ≤ node.dataCapacity ∧ (∀ i, i < b → node.arrays.key i ≤ key) ∧
        (∀ i, b ≤ i → key ≤ node.arrays.key i) ∧ b ≤ p ∧
          (p = b ∨ p < node.dataCapacity ∧ ∀ i, b ≤ i → i ≤ p → node.bitmap.bit i = false) := by
  obtain ⟨b, hsearch, hle, hbelow, habove⟩ :=
    exponentialSearchUpperBound_spec key h (predictPosition_lt key hcap)
  have hpredict := predictPosition_lt key hcap
  simp only [findInsertPosition, hsearch, Option.bind_eq_bind, Option.bind_some]
  split
  case isTrue => exact ⟨b, b, rfl, hle, hbelow, habove, le_rfl, .inl rfl⟩
  case isFalse hgt =>
    simp only [checkExists, if_pos (show b < node.dataCapacity by omega), Option.bind_some]
    split
    case isTrue => exact ⟨b, b, rfl, hle, hbelow, habove, le_rfl, .inl rfl⟩
    case isFalse hgap =>
      have hbits : node.dataCapacity ≤ node.bitmap.length := h.bits ▸ le_bits _
      obtain ⟨hnext, hlast, hgaps⟩ := getNextFilledPosition_spec hbits h.rest
        (show b < node.dataCapacity by omega)
      refine ⟨_, b, rfl, hle, hbelow, habove, by omega, .inr ⟨by omega, ?_⟩⟩
      intro i hi hip
      rcases Nat.eq_or_lt_of_le hi with rfl | hlt
      · exact Bool.eq_false_iff.mpr hgap
      · exact hgaps i hlt (by omega)

omit [LinearOrder K] [OrderTop K] in
theorem set_true_eq_self {bits : Bitmap} {p : ℕ} (hp : p < bits.length) (hbit : bits.bit p = true) :
    bits.set p true = bits := by
  rw [Bitmap.bit, List.getD_eq_getElem _ _ hp] at hbit
  rw [← hbit, List.set_getElem_self]

theorem getD_insertElementAt {p lo : ℕ} {keys : List K} {bits : Bitmap} (hp : p < keys.length)
    (hlo : lo ≤ p) (hgaps : ∀ i, lo ≤ i → i < p → bits.bit i = false)
    (hfirst : 0 < lo → bits.bit (lo - 1) = true) (i : ℕ) :
    (fillGaps bits key p (keys.set p key)).getD i ⊤ =
      if lo ≤ i ∧ i ≤ p then key else keys.getD i ⊤ := by
  rw [getD_fillGaps (by rw [List.length_set]; omega) hlo hgaps hfirst, getD_set_of_lt hp]
  split_ifs <;> first | omega | rfl

section Bound

variable {b p : ℕ} (h : Sound node.dataCapacity node.arrays n)
  (hbelow : ∀ i, i < b → node.arrays.key i < key) (habove : ∀ i, b ≤ i → key ≤ node.arrays.key i)
include h hbelow habove

theorem bit_before_bound (hb : 0 < b) : node.bitmap.bit (b - 1) = true := by
  apply h.gapped.filled_of_lt
  rw [Nat.sub_add_cancel hb]
  exact (hbelow (b - 1) (by omega)).trans_le (habove b le_rfl)

theorem insertElementAt_sound (hbp : b ≤ p) (hp : p < node.dataCapacity)
    (hgaps : ∀ i, b ≤ i → i ≤ p → node.bitmap.bit i = false) :
    ∃ s, node.insertElementAt key payload p = some (node.withArrays s) ∧
      Sound node.dataCapacity s (n + 1) := by
  have hkeys : node.keySlots.length = node.dataCapacity := h.keys
  have hbits : p < node.bitmap.length := h.lt_bits hp
  refine ⟨⟨_, _, _⟩, if_pos hp, ?_, ?_, ?_, ?_, ?_, ?_⟩
  · rw [length_fillGaps, List.length_set, hkeys]
  · rw [List.length_set]
    exact h.payloads
  · rw [List.length_set]
    exact h.bits
  · refine h.gapped.insert hbelow habove (p := p) ?_ fun i => bit_set hbits
    exact getD_insertElementAt (by omega) hbp (fun i hi hip => hgaps i hi hip.le)
      (bit_before_bound h hbelow habove)
  · intro i hi
    rw [bit_set hbits, if_neg (by omega)]
    exact h.rest i hi
  · rw [count_set_true hbits (hgaps p hbp le_rfl)]
    exact congrArg (· + 1) h.count

theorem shiftRight_sound (payload : P) {g : ℕ} (hbg : b < g) (hg : g < node.dataCapacity)
    (hgap : node.bitmap.bit g = false) (hrun : ∀ i, b ≤ i → i < g → node.bitmap.bit i = true) :
    Sound node.dataCapacity ⟨fillGaps (node.bitmap.set g true) key b
      ((shiftRight node.keySlots b (g - b)).set b key),
        (shiftRight node.payloadSlots b (g - b)).set b payload,
          (node.bitmap.set g true).set b true⟩ (n + 1) := by
  have hkeys : node.keySlots.length = node.dataCapacity := h.keys
  have hbits : g < node.bitmap.length := h.lt_bits hg
  have hb : Bitmap.bit (node.bitmap.set g true) b = true := by
    rw [bit_set hbits, if_neg (by omega), hrun b le_rfl hbg]
  rw [set_true_eq_self (by rw [List.length_set]; omega) hb]
  refine ⟨?_, ?_, ?_, ?_, ?_, ?_⟩
  · rw [length_fillGaps, List.length_set, length_shiftRight, hkeys]
  · rw [List.length_set, length_shiftRight]
    exact h.payloads
  · rw [List.length_set]
    exact h.bits
  · refine h.gapped.shiftRight hbelow habove hbg.le hrun ?_ fun i => bit_set hbits
    intro i
    rw [Arrays.key, getD_insertElementAt (by rw [length_shiftRight]; omega) le_rfl
      (fun i hi hib => by omega) (fun hpos => by
        rw [bit_set hbits, if_neg (by omega), bit_before_bound h hbelow habove hpos]),
      getD_shiftRight (by omega), Arrays.key, Arrays.key, arrays]
    split_ifs <;> first | omega | rfl
  · intro i hi
    rw [bit_set hbits, if_neg (by omega)]
    exact h.rest i hi
  · rw [count_set_true hbits hgap]
    exact congrArg (· + 1) h.count

theorem shiftLeft_sound (payload : P) {g : ℕ} (hgb : g + 1 < b) (hb : b ≤ node.dataCapacity)
    (hgap : node.bitmap.bit g = false) (hrun : ∀ i, g < i → i < b → node.bitmap.bit i = true) :
    Sound node.dataCapacity ⟨fillGaps (node.bitmap.set g true) key (b - 1)
      ((shiftLeft node.keySlots g (b - 1 - g)).set (b - 1) key),
        (shiftLeft node.payloadSlots g (b - 1 - g)).set (b - 1) payload,
          (node.bitmap.set g true).set (b - 1) true⟩ (n + 1) := by
  have hkeys : node.keySlots.length = node.dataCapacity := h.keys
  have hbits : g < node.bitmap.length := h.lt_bits (by omega)
  have hbits' : b - 1 < node.bitmap.length := h.lt_bits (by omega)
  have hbit : ∀ i, g ≤ i → i < b → Bitmap.bit (node.bitmap.set g true) i = true := by
    intro i hi hib
    rw [bit_set hbits]
    split_ifs
    · rfl
    · exact hrun i (by omega) hib
  rw [set_true_eq_self (by rwa [List.length_set]) (hbit (b - 1) (by omega) (by omega))]
  refine ⟨?_, ?_, ?_, ?_, ?_, ?_⟩
  · rw [length_fillGaps, List.length_set, length_shiftLeft, hkeys]
  · rw [List.length_set, length_shiftLeft]
    exact h.payloads
  · rw [List.length_set]
    exact h.bits
  · refine h.gapped.shiftLeft hbelow habove hgb hgap hrun ?_ fun i => bit_set hbits
    intro i
    rw [Arrays.key, getD_insertElementAt (by rw [length_shiftLeft]; omega) le_rfl
      (fun i hi hib => by omega) (fun hpos => hbit (b - 1 - 1) (by omega) (by omega)),
      getD_shiftLeft (by omega), Arrays.key, Arrays.key, arrays]
    split_ifs <;> first | omega | rfl
  · intro i hi
    rw [bit_set hbits, if_neg (by omega)]
    exact h.rest i hi
  · rw [count_set_true hbits hgap]
    exact congrArg (· + 1) h.count

theorem insertUsingShifts_sound (payload : P) (hsize : node.bitmapSize = bitmapSizeFor node.dataCapacity)
    (hn : n < node.dataCapacity) (hb : b ≤ node.dataCapacity)
    (hfilled : b < node.dataCapacity → node.bitmap.bit b = true) :
    ∃ s, node.insertUsingShifts key payload b = some (node.withArrays s) ∧
      Sound node.dataCapacity s (n + 1) := by
  obtain ⟨g, hclosest, hnear⟩ := closestGap_spec b hsize h.rest (h.exists_gap hn)
  have hg := hnear.lt
  have hgap : node.bitmap.bit g = false := hnear.empty
  rw [insertUsingShifts]
  simp only [arrays] at hclosest
  rw [hclosest, Option.bind_eq_bind, Option.bind_some]
  have hne (hb : 0 < b) : g ≠ b - 1 := by
    rintro rfl
    rw [bit_before_bound h hbelow habove hb] at hgap
    exact Bool.noConfusion hgap
  split
  case isTrue hle =>
    have hlt : b < g := by
      refine lt_of_le_of_ne hle ?_
      rintro rfl
      rw [hfilled hg] at hgap
      exact Bool.noConfusion hgap
    refine ⟨⟨_, _, _⟩, ?_, shiftRight_sound h hbelow habove payload hlt hg hgap fun i hi hig =>
      hnear.right i (by omega) hig⟩
    simp only [insertElementAt]
    rw [if_pos (by omega)]
    rfl
  case isFalse hgt =>
    have hfar : g + 1 < b := by
      have := hne (by omega)
      omega
    refine ⟨⟨_, _, _⟩, ?_, shiftLeft_sound h hbelow habove payload hfar hb hgap fun i hi hib =>
      hnear.left i hi (by omega)⟩
    simp only [insertElementAt]
    rw [if_pos (by omega)]
    rfl

theorem insertKey_sound (payload : P) (hsize : node.bitmapSize = bitmapSizeFor node.dataCapacity)
    (hn : n < node.dataCapacity) (hb : b ≤ node.dataCapacity) (hbp : b ≤ p)
    (hp : p = b ∨ p < node.dataCapacity ∧ ∀ i, b ≤ i → i ≤ p → node.bitmap.bit i = false) :
    ∃ s, node.insertKey key payload p = some (node.withArrays s) ∧
      Sound node.dataCapacity s (n + 1) := by
  rw [insertKey]
  by_cases hfree : p < node.dataCapacity ∧ node.bitmap.bit p = false
  case pos =>
    simp only [if_pos hfree.1, checkExists, hfree.2, Option.bind_eq_bind, Option.bind_some,
      Bool.false_eq_true, ↓reduceIte]
    refine insertElementAt_sound h hbelow habove hbp hfree.1 ?_
    rcases hp with rfl | ⟨-, hgaps⟩
    · intro i hi hip
      exact (show i = p by omega) ▸ hfree.2
    · exact hgaps
  case neg =>
    have hpb : p = b := by
      refine hp.resolve_right ?_
      rintro ⟨hlt, hgaps⟩
      exact hfree ⟨hlt, hgaps p hbp le_rfl⟩
    subst hpb
    have hfilled (hlt : p < node.dataCapacity) : node.bitmap.bit p = true :=
      Bool.eq_true_of_not_eq_false fun hgap => hfree ⟨hlt, hgap⟩
    have hshift := insertUsingShifts_sound h hbelow habove payload hsize hn hb hfilled
    split
    case isTrue hlt =>
      simpa only [checkExists, if_pos hlt, hfilled hlt, Option.bind_eq_bind, Option.bind_some,
        ↓reduceIte] using hshift
    case isFalse => exact hshift

end Bound

end DataNode

end LearnedIndexFramework.Alexol
