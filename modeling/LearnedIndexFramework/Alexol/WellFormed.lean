import LearnedIndexFramework.Alexol.Insert
import LearnedIndexFramework.Lib.Words
import Mathlib.Data.Nat.Cast.Order.Ring

/-! The data nodes over a run: sorted slots, gaps with the key behind them, and as many bits as
keys, as long as no node is replaced when its last key is gone. -/

namespace LearnedIndexFramework.Alexol

open Lib

variable {K P : Type} [LinearOrder K] [OrderTop K]

namespace DataNode

def nextKey (node : DataNode K P) (i : ℕ) : K :=
  (((List.range' i (node.dataCapacity - i)).find? node.bitmap.bit).bind
    fun j => node.keySlots[j]?).getD ⊤

structure WellFormed (node : DataNode K P) : Prop where
  sorted : node.keySlots.Pairwise (· ≤ ·)
  gaps : ∀ i, i < node.dataCapacity → node.bitmap.bit i = false →
    node.keySlots[i]? = some (node.nextKey i)
  count : node.bitmap.count true = node.numKeys

structure Inv (node : DataNode K P) : Prop where
  sound : Sound node.dataCapacity node.arrays node.numKeys
  capacity : 0 < node.dataCapacity
  size : node.bitmapSize = bitmapSizeFor node.dataCapacity
  threshold : node.expansionThreshold ≤ node.dataCapacity
  room : node.locked = false → (node.numKeys : ℚ) < node.expansionThreshold

variable {node : DataNode K P} {n : ℕ}

theorem Inv.wellFormed (h : node.Inv) : node.WellFormed where
  sorted := by
    rw [List.pairwise_iff_getElem]
    intro i j hi hj hij
    have hle := h.sound.gapped.mono hij.le
    rwa [Arrays.key, Arrays.key, arrays, List.getD_eq_getElem _ _ hi,
      List.getD_eq_getElem _ _ hj] at hle
  gaps i hi hgap := by
    have hslot : node.keySlots[i]? = some (node.arrays.key i) := h.sound.getElem?_key hi
    rw [hslot, nextKey]
    cases hfind : (List.range' i (node.dataCapacity - i)).find? node.bitmap.bit with
    | some j =>
      obtain ⟨-, hmem, hbefore⟩ := List.find?_range'_eq_some.mp hfind
      rw [List.mem_range'_1] at hmem
      have hnext : node.keySlots[j]? = some (node.arrays.key j) :=
        h.sound.getElem?_key (by omega)
      rw [Option.bind_some, hnext, Option.getD_some, Option.some_inj]
      exact h.sound.gapped.eq_of_gaps hmem.1 fun t hit htj =>
        Bool.not_eq_true' _ ▸ hbefore t hit htj
    | none =>
      rw [List.find?_range'_eq_none] at hfind
      rw [Option.bind_none, Option.getD_none, Option.some_inj, ← h.sound.key_eq_top le_rfl]
      exact h.sound.gapped.eq_of_gaps hi.le fun t hit htc =>
        Bool.not_eq_true' _ ▸ hfind t hit (by omega)
  count := h.sound.count

/-! ### Replacement -/

omit [LinearOrder K] [OrderTop K] in
theorem count_eq_countP (bits : Bitmap) {n : ℕ} (hrest : ∀ i, n ≤ i → bits.bit i = false) :
    bits.count true = (List.range n).countP bits.bit := by
  induction bits generalizing n with
  | nil =>
    refine (List.countP_eq_zero.mpr fun i _ => ?_).symm
    exact Bool.false_ne_true
  | cons b bits ih =>
    have hcons : ∀ i, Bitmap.bit (b :: bits) (i + 1) = Bitmap.bit bits i := fun _ => rfl
    cases n with
    | zero =>
      have hb : b = false := hrest 0 le_rfl
      rw [hb, List.count_cons_of_ne (by decide),
        ih (n := 0) fun i hi => hcons i ▸ hrest (i + 1) (by omega)]
      rfl
    | succ n =>
      have htail := ih (n := n) fun i hi => hcons i ▸ hrest (i + 1) (by omega)
      have hmap : ((List.range n).map Nat.succ).countP (Bitmap.bit (b :: bits)) =
          (List.range n).countP (Bitmap.bit bits) := by
        rw [List.countP_map]
        rfl
      rw [List.range_succ_eq_map, List.countP_cons, hmap, ← htail, List.count_cons]
      cases b with
      | false => rfl
      | true => rfl

theorem entries_eq (h : Sound node.dataCapacity node.arrays n) :
    node.entries.length = n ∧ (node.entries.Pairwise fun a b => a.1 ≤ b.1) ∧
      ∀ i, i < node.dataCapacity → node.bitmap.bit i = true →
        ∃ e ∈ node.entries, e.1 = node.arrays.key i := by
  have hpayload : ∀ i, i < node.dataCapacity → ∃ p, node.payloadSlots[i]? = some p := by
    intro i hi
    exact ⟨_, List.getElem?_eq_getElem (h.payloads ▸ hi)⟩
  have hkey : ∀ i, i < node.dataCapacity → node.keySlots[i]? = some (node.arrays.key i) :=
    fun i hi => h.getElem?_key hi
  refine ⟨?_, ?_, ?_⟩
  · rw [entries, List.length_filterMap_eq_countP, ← h.count, count_eq_countP _ h.rest]
    refine List.countP_congr fun i hi => ?_
    rw [List.mem_range] at hi
    obtain ⟨p, hp⟩ := hpayload i hi
    rw [hkey i hi, hp]
    cases hbit : node.bitmap.bit i with
    | false => simp [arrays, hbit]
    | true => simp [arrays, hbit]
  · rw [entries, List.pairwise_filterMap]
    refine List.pairwise_lt_range.imp_of_mem ?_
    intro i j hi hj hij a ha b hb
    rw [List.mem_range] at hi hj
    obtain ⟨p, hp⟩ := hpayload i hi
    obtain ⟨q, hq⟩ := hpayload j hj
    rw [hkey i hi, hp] at ha
    rw [hkey j hj, hq] at hb
    split at ha
    · split at hb
      · cases ha
        cases hb
        exact h.gapped.mono hij.le
      · cases hb
    · cases ha
  · intro i hi hbit
    obtain ⟨p, hp⟩ := hpayload i hi
    refine ⟨(node.arrays.key i, p), ?_, rfl⟩
    rw [entries, List.mem_filterMap]
    refine ⟨i, List.mem_range.mpr hi, ?_⟩
    rw [if_pos hbit, hkey i hi, hp]
    rfl

variable {c : Choice K P} {key : K} {payload : P}

omit [LinearOrder K] [OrderTop K] in
theorem lt_capacityFor (c : Choice K P) (n : ℕ) : n < capacityFor c n := by
  rw [capacityFor]
  omega

omit [LinearOrder K] [OrderTop K] in
theorem lt_expansionThresholdFor (c : Choice K P) {n capacity : ℕ} (h : n < capacity) :
    (n : ℚ) < expansionThresholdFor c n capacity := by
  rw [expansionThresholdFor, lt_min_iff, lt_max_iff]
  exact ⟨.inr (lt_add_one _), by exact_mod_cast h⟩

theorem inv_bulkLoad (c : Choice K P) {values : List (K × P)}
    (hsorted : (values.map Prod.fst).Pairwise (· < ·)) : (bulkLoad c values).Inv := by
  have hle : values.Pairwise fun a b => a.1 ≤ b.1 := (List.pairwise_map.mp hsorted).imp le_of_lt
  have hlt := lt_capacityFor c values.length
  refine ⟨?_, Nat.zero_lt_of_lt hlt, rfl, ?_, ?_⟩
  · by_cases hnone : values.length = 0
    · have hplaced := placed_sound (placed_fresh c (capacityFor c values.length))
      simp only [bulkLoad, arrays, if_pos hnone]
      rw [Nat.sub_zero] at hplaced
      exact hnone ▸ hplaced
    · simp only [bulkLoad, arrays, if_neg hnone]
      exact layOut_sound c c.model hlt.le hle
  · simp only [bulkLoad]
    split
    · exact le_rfl
    · exact min_le_right _ _
  · intro _
    simp only [bulkLoad]
    split
    · exact_mod_cast hlt
    · exact lt_expansionThresholdFor c hlt

theorem inv_replace (h : Sound node.dataCapacity node.arrays node.numKeys)
    (hkeys : node.numKeys = 0 → c.freshKeys 0 = ⊤) : (node.replace c).Inv := by
  have hlt := lt_capacityFor c node.numKeys
  by_cases hnone : node.numKeys = 0
  case pos =>
    have hone : capacityFor c node.numKeys = 1 := by
      rw [hnone]
      rfl
    have hplaced := placed_fresh c (capacityFor c node.numKeys)
    simp only [replace, resizeFromExisting, if_pos hnone]
    refine ⟨⟨hplaced.keys, hplaced.payloads, hplaced.bits, ?_, ?_, ?_⟩, Nat.zero_lt_of_lt hlt, rfl,
      le_rfl, ?_⟩
    · refine GappedTo.gapped gappedTo_zero fun i _ => ?_
      simp only [Arrays.key, arrays, Arrays.fresh, hone]
      cases i with
      | zero => exact hkeys hnone
      | succ i => rfl
    · intro i _
      exact hplaced.rest i i.zero_le
    · exact hplaced.count.trans hnone.symm
    · intro _
      exact Nat.cast_lt.mpr hlt
  case neg =>
    obtain ⟨hlength, hsorted, -⟩ := entries_eq h
    have hsound := layOut_sound c c.model (hlength ▸ hlt.le) hsorted
    rw [hlength] at hsound
    simp only [replace, resizeFromExisting, if_neg hnone]
    exact ⟨hsound, Nat.zero_lt_of_lt hlt, rfl, min_le_right _ _,
      fun _ => lt_expansionThresholdFor c hlt⟩

/-! ### Operations -/

theorem inv_update (h : node.Inv) (key : K) (payload : P) :
    ∃ updated node', node.update key payload = some (updated, node') ∧ node'.Inv := by
  rw [update]
  split
  case isTrue => exact ⟨_, _, rfl, h⟩
  case isFalse =>
    obtain ⟨b, hsearch, -⟩ :=
      exponentialSearchUpperBound_spec key h.sound (predictPosition_lt key h.capacity)
    simp only [upperBound, hsearch, Option.bind_eq_bind, Option.bind_some]
    split
    case isFalse => exact ⟨_, _, rfl, h⟩
    case isTrue =>
      refine ⟨_, _, rfl, ⟨⟨h.sound.keys, ?_, h.sound.bits, h.sound.gapped, h.sound.rest,
        h.sound.count⟩, h.capacity, h.size, h.threshold, h.room⟩⟩
      exact List.length_set.trans h.sound.payloads

theorem inv_insert (h : node.Inv) (c : Choice K P) (key : K) (payload : P) :
    ∃ flag node', node.insert c key payload = some (flag, node') ∧ node'.Inv ∧
      (flag = .resizing ∨ flag = .costDeviation → node'.numKeys ≠ 0) := by
  rw [insert]
  split
  case isTrue => exact ⟨_, _, rfl, h, by simp⟩
  case isFalse hopen =>
    have hroom := h.room (Bool.eq_false_iff.mpr hopen)
    have hn : node.numKeys < node.dataCapacity := by exact_mod_cast hroom.trans_le h.threshold
    obtain ⟨p, b, hfind, hle, hbelow, habove, hbp, hp⟩ :=
      findInsertPosition_spec key h.sound h.capacity
    simp only [hfind, Option.bind_eq_bind, Option.bind_some]
    split
    case isTrue => exact ⟨_, _, rfl, h, by simp⟩
    case isFalse hnew =>
      have hless : ∀ i, i < b → node.arrays.key i < key := by
        intro i hi
        refine (h.sound.gapped.mono (show i ≤ b - 1 by omega)).trans_lt ?_
        refine lt_of_le_of_ne (hbelow (b - 1) (by omega)) fun heq => hnew ⟨by omega, ?_⟩
        exact (h.sound.getElem?_key (show b - 1 < node.dataCapacity by omega)).trans
          (congrArg some heq)
      obtain ⟨s, hinsert, hsound⟩ := insertKey_sound (p := p) h.sound hless habove payload h.size hn
        hle hbp hp
      simp only [hinsert, Option.bind_some]
      refine ⟨_, _, rfl, ⟨hsound, h.capacity, h.size, h.threshold, ?_⟩, fun _ => Nat.succ_ne_zero _⟩
      intro hunlocked
      have hflag := of_decide_eq_false hunlocked
      rw [not_not, insertFlag] at hflag
      split_ifs at hflag with hcatastrophe hfull
      exact not_le.mp hfull

def EmptiedBy (node : DataNode K P) (key : K) : Prop :=
  node.locked = false ∧ (∀ e ∈ node.entries, e.1 = key) ∧ 0 < node.contractionThreshold

theorem sound_erased (h : Sound node.dataCapacity node.arrays n) {b lo : ℕ}
    {r : List K × Bitmap × ℕ} (hb : b ≤ node.dataCapacity)
    (hbelow : ∀ i, i < b → node.arrays.key i ≤ key)
    (herased : Erased key (node.arrays.key b) b lo node.keySlots node.bitmap r) :
    Sound node.dataCapacity ⟨r.1, node.payloadSlots, r.2.1⟩ (n - r.2.2) := by
  have hcount : node.bitmap.count true = n := h.count
  refine ⟨herased.keysLength.trans h.keys, h.payloads, herased.bitsLength.trans h.bits, ?_, ?_, ?_⟩
  · refine h.gapped.erase (x := key) (b := b) ?_ herased.run herased.getD herased.bit
    intro i hi
    have hlo := herased.le
    refine (h.gapped.mono (show i ≤ lo - 1 by omega)).trans_lt ?_
    exact lt_of_le_of_ne (hbelow (lo - 1) (by omega)) (herased.first (by omega))
  · intro i hi
    rw [herased.bit, if_neg (by omega)]
    exact h.rest i hi
  · have hold := herased.count
    show r.2.1.count true = n - r.2.2
    omega

theorem entries_of_erased (h : Sound node.dataCapacity node.arrays n) {b lo : ℕ} {next : K}
    {r : List K × Bitmap × ℕ} (herased : Erased key next b lo node.keySlots node.bitmap r)
    (hnone : r.2.1.count true = 0) : ∀ e ∈ node.entries, e.1 = key := by
  intro e he
  rw [entries, List.mem_filterMap] at he
  obtain ⟨i, hi, he⟩ := he
  rw [List.mem_range] at hi
  split at he
  case isFalse => cases he
  case isTrue hbit =>
    have hkey : node.keySlots[i]? = some (node.arrays.key i) := h.getElem?_key hi
    rw [hkey, Option.bind_some, Option.map_eq_some_iff] at he
    obtain ⟨p, -, rfl⟩ := he
    have hgone : r.2.1.bit i = false := by
      rw [List.count_eq_zero] at hnone
      refine Bool.eq_false_iff.mpr fun htrue => hnone ?_
      have hlt : i < r.2.1.length := by
        rw [herased.bitsLength]
        exact h.lt_bits hi
      rw [Bitmap.bit, List.getD_eq_getElem _ _ hlt] at htrue
      exact htrue ▸ List.getElem_mem hlt
    rw [herased.bit] at hgone
    split at hgone
    case isTrue hin => exact herased.run i hin.1 hin.2
    case isFalse =>
      rw [hbit] at hgone
      exact Bool.noConfusion hgone

theorem keyFrom_eq (h : Sound node.dataCapacity node.arrays n) {b : ℕ}
    (hb : b ≤ node.dataCapacity) : node.keyFrom b = some (node.arrays.key b) := by
  rw [keyFrom]
  split
  case isTrue heq => rw [h.key_eq_top heq.ge]
  case isFalse hne => exact h.getElem?_key (by omega)

theorem inv_eraseBelow (h : node.Inv) (hopen : node.locked = false) {b : ℕ}
    (hb : b ≤ node.dataCapacity) (hbelow : ∀ i, i < b → node.arrays.key i ≤ key) :
    (node.eraseBelow key (node.arrays.key b) b).2.2.Inv ∧
      ((node.eraseBelow key (node.arrays.key b) b).1 = .contraction →
        (node.eraseBelow key (node.arrays.key b) b).2.2.numKeys = 0 → node.EmptiedBy key) := by
  have hkeys : node.keySlots.length = node.dataCapacity := h.sound.keys
  have hbits : node.dataCapacity ≤ node.bitmap.length := h.sound.bits ▸ le_bits _
  obtain ⟨lo, herased⟩ := eraseFrom_spec key (node.arrays.key b) node.keySlots node.bitmap
    (hkeys ▸ hb) (hb.trans hbits)
  rw [eraseBelow]
  generalize eraseFrom key (node.arrays.key b) b node.keySlots node.bitmap = r at herased ⊢
  have hsound := sound_erased h.sound hb hbelow herased
  by_cases hfew : ((node.numKeys - r.2.2 : ℕ) : ℚ) < node.contractionThreshold
  case pos =>
    simp only [if_pos hfew]
    refine ⟨⟨hsound, h.capacity, h.size, h.threshold, fun hlock => nomatch hlock⟩, ?_⟩
    intro _ hzero
    refine ⟨hopen, entries_of_erased h.sound herased (hsound.count.trans hzero), ?_⟩
    rw [hzero] at hfew
    exact_mod_cast hfew
  case neg =>
    simp only [if_neg hfew]
    refine ⟨⟨hsound, h.capacity, h.size, h.threshold, fun hlock => ?_⟩, fun hflag => nomatch hflag⟩
    exact (Nat.cast_le.mpr (Nat.sub_le _ _)).trans_lt (h.room hlock)

theorem inv_erase (h : node.Inv) (key : K) :
    ∃ flag count node', node.erase key = some (flag, count, node') ∧ node'.Inv ∧
      (flag = .contraction → node'.numKeys = 0 → node.EmptiedBy key) := by
  rw [erase]
  split
  case isTrue => exact ⟨_, _, _, rfl, h, by simp⟩
  case isFalse hopen =>
    obtain ⟨b, hsearch, hle, hbelow, -⟩ :=
      exponentialSearchUpperBound_spec key h.sound (predictPosition_lt key h.capacity)
    simp only [upperBound, hsearch, Option.bind_eq_bind, Option.bind_some]
    split
    case isTrue => exact ⟨_, _, _, rfl, h, by simp⟩
    case isFalse =>
      have hinv := inv_eraseBelow h (Bool.eq_false_iff.mpr hopen) hle hbelow
      simp only [keyFrom_eq h.sound hle, Option.bind_some]
      exact ⟨_, _, _, rfl, hinv⟩

end DataNode

/-! ### Runs -/

inductive Fault
  | outOfBounds
  deriving DecidableEq, Repr

def step (node : DataNode K P) (op : Op K P) : Except Fault (Reply × DataNode K P) :=
  match op.apply node with
  | some r => .ok r
  | none => .error .outOfBounds

/-- No erase takes the last key of a node that then contracts, unless the memory of the new slot
holds the sentinel. -/
def Op.KeepsKey (node : DataNode K P) : Op K P → Prop
  | .insert _ _ _ => True
  | .update _ _ => True
  | .erase key c => node.EmptiedBy key → c.freshKeys 0 = ⊤

instance (node : DataNode K P) (key : K) : Decidable (node.EmptiedBy key) :=
  inferInstanceAs (Decidable (_ ∧ _ ∧ _))

instance (node : DataNode K P) : DecidablePred (Op.KeepsKey node)
  | .insert _ _ _ => .isTrue trivial
  | .update _ _ => .isTrue trivial
  | .erase key c => inferInstanceAs (Decidable (node.EmptiedBy key → c.freshKeys 0 = ⊤))

theorem step_inv {node : DataNode K P} {op : Op K P} (h : node.Inv) (hop : op.KeepsKey node) :
    ∃ r node', step node op = .ok (r, node') ∧ node'.Inv := by
  cases op with
  | insert key payload c =>
    obtain ⟨flag, node', hinsert, hinv, hkeys⟩ := DataNode.inv_insert h c key payload
    simp only [step, Op.apply, hinsert, Option.bind_eq_bind, Option.bind_some, Option.pure_def]
    refine ⟨_, _, rfl, ?_⟩
    split
    case isTrue hreplaced =>
      refine DataNode.inv_replace hinv.sound fun hzero => absurd hzero (hkeys ?_)
      exact hreplaced.imp_right And.left
    case isFalse => exact hinv
  | update key payload =>
    obtain ⟨updated, node', hupdate, hinv⟩ := DataNode.inv_update h key payload
    simp only [step, Op.apply, hupdate, Option.bind_eq_bind, Option.bind_some, Option.pure_def]
    exact ⟨_, _, rfl, hinv⟩
  | erase key c =>
    obtain ⟨flag, count, node', herase, hinv, hkeys⟩ := DataNode.inv_erase h key
    simp only [step, Op.apply, herase, Option.bind_eq_bind, Option.bind_some, Option.pure_def]
    refine ⟨_, _, rfl, ?_⟩
    split
    case isTrue hcontracted =>
      exact DataNode.inv_replace hinv.sound fun hzero => hop (hkeys hcontracted hzero)
    case isFalse => exact hinv

/-- The nodes after each operation of a run. -/
theorem run_wellFormed (c : Choice K P) {values : List (K × P)}
    (hsorted : (values.map Prod.fst).Pairwise (· < ·)) {ops : List (Op K P)}
    (hops : Meets step (fun node op => op.KeepsKey node) (bulkLoad c values) ops) :
    ∀ done, done <+: ops → ∃ replies node,
      run step (bulkLoad c values) done = .ok (replies, node) ∧ node.WellFormed := by
  intro done hdone
  obtain ⟨replies, node, hrun, hinv⟩ := run_succeeds (fun _ _ => step_inv)
    (DataNode.inv_bulkLoad c hsorted) (hops.initial hdone)
  exact ⟨replies, node, hrun, hinv.wellFormed⟩

def Choice.filled (key : Word) : Choice Word ℕ where
  slots := 3
  maxFilled := 2
  minFilled := 2
  model _ := 0
  freshKeys _ := key
  freshPayloads _ := 0
  catastrophicCost := false
  significantCostDeviation := false
  atMaxCapacity := false
  retrain := false

theorem run_wellFormed_contraction :
    ∃ replies node,
      run step (bulkLoad (.filled (.ofNat 7)) [(Word.ofNat 5, 50), (Word.ofNat 9, 90)])
        [.erase (.ofNat 5) (.filled (.ofNat 7)), .insert (.ofNat 7) 70 (.filled (.ofNat 7))] =
        .ok (replies, node) ∧ node.WellFormed := by
  refine run_wellFormed _ ?_ ?_ _ (List.prefix_refl _)
  · decide
  · decide +kernel

theorem not_wellFormed_emptied :
    ∃ replies node,
      run step (bulkLoad (.filled (.ofNat 7)) [(Word.ofNat 5, 50)])
        [.erase (.ofNat 5) (.filled (.ofNat 7))] = .ok (replies, node) ∧ ¬ node.WellFormed := by
  refine ⟨_, _, rfl, fun h => ?_⟩
  have hgap := h.gaps 0 (by decide) (by decide)
  revert hgap
  decide +kernel

end LearnedIndexFramework.Alexol
