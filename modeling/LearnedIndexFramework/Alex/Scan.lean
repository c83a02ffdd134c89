import LearnedIndexFramework.Alexol.Scan

/-! Scans over the leaves of `competitor/alex`, whose data nodes have the arrays of those of
`competitor/alexol`. -/

namespace LearnedIndexFramework.Alex

open Lib Alexol

variable {K P : Type} [LinearOrder K] [OrderTop K]

def lowerBound (node : DataNode K P) (key : K) : Option ℕ :=
  exponentialSearch (fun i => node.keySlots[i]?.map fun x => decide (key ≤ x)) node.dataCapacity
    (node.predictPosition key)

/-- The position may be the capacity.  A word behind the bitmap is read as `outside`. -/
def getNextFilledPosition (outside : BitVec 64) (node : DataNode K P) (pos : ℕ) : ℕ :=
  let curBitmapIdx := pos / 64
  let word := if curBitmapIdx < node.bitmapSize then node.bitmap.data curBitmapIdx else outside
  match skipEmpty node.bitmap (node.bitmapSize - (curBitmapIdx + 1)) curBitmapIdx
    (zeroOut word (pos % 64)) with
  | none => node.dataCapacity
  | some (idx, data) => getOffset idx (extractRightmostOne data)

def findLower (outside : BitVec 64) (node : DataNode K P) (key : K) : Option ℕ := do
  let pos ← lowerBound node key
  return getNextFilledPosition outside node pos

/-- `Iterator` before its end, with the leaves behind its own. -/
structure Cursor (K P : Type) where
  curLeaf : DataNode K P
  leaves : List (DataNode K P)
  curIdx : ℕ
  curBitmapIdx : ℕ
  curBitmapData : BitVec 64

def advance : DataNode K P → List (DataNode K P) → ℕ → BitVec 64 → Option (Cursor K P)
  | leaf, leaves, curBitmapIdx, data =>
    match skipEmpty leaf.bitmap (leaf.bitmapSize - (curBitmapIdx + 1)) curBitmapIdx data with
    | some (idx, data) => some ⟨leaf, leaves, getOffset idx (extractRightmostOne data), idx,
        removeRightmostOne data⟩
    | none =>
      match leaves with
      | [] => none
      | nextLeaf :: rest => advance nextLeaf rest 0 (nextLeaf.bitmap.data 0)

def iterator (leaf : DataNode K P) (leaves : List (DataNode K P)) (idx : ℕ) :
    Option (Cursor K P) :=
  if leaf.dataCapacity ≤ idx then
    match leaves with
    | [] => none
    | nextLeaf :: rest => advance nextLeaf rest 0 (zeroOut (nextLeaf.bitmap.data 0) 0)
  else advance leaf leaves (idx / 64) (zeroOut (leaf.bitmap.data (idx / 64)) (idx % 64))

def scanFrom : ℕ → Option (Cursor K P) → Option (List (K × P))
  | 0, _ => some []
  | _ + 1, none => some []
  | keyNum + 1, some c => do
    let entry ← c.curLeaf.entryAt c.curIdx
    let rest ← scanFrom keyNum (advance c.curLeaf c.leaves c.curBitmapIdx c.curBitmapData)
    return entry :: rest

/-- `alexInterface::scan` from the leaf of the key on. -/
def scan (outside : BitVec 64) (leaf : DataNode K P) (leaves : List (DataNode K P))
    (keyLowBound : K) (keyNum : ℕ) : Option (List (K × P)) := do
  let idx ← findLower outside leaf keyLowBound
  let result ← scanFrom keyNum (iterator leaf leaves idx)
  counted result

/-! ### What a scan returns -/

def ahead (node : DataNode K P) (idx : ℕ) (data : BitVec 64) : List ℕ :=
  ones idx data ++ node.bitmap.filled ((idx + 1) * 64) (node.bitmapSize * 64)

inductive Before : List (K × P) → Option (Cursor K P) → Prop
  | none : Before [] none
  | some {c : Cursor K P} {e : K × P} : (∀ leaf ∈ c.curLeaf :: c.leaves, leaf.Readable) →
      c.curBitmapIdx < c.curLeaf.bitmapSize → c.curLeaf.entryAt c.curIdx = some e →
      (∀ i ∈ ahead c.curLeaf c.curBitmapIdx c.curBitmapData, i < c.curLeaf.dataCapacity) →
      Before (e :: (ahead c.curLeaf c.curBitmapIdx c.curBitmapData).filterMap c.curLeaf.entryAt ++
        contents c.leaves) (some c)

variable {leaf : DataNode K P} {leaves : List (DataNode K P)} {idx : ℕ} {data : BitVec 64}

theorem size_pos (h : leaf.Readable) : 0 < leaf.bitmapSize := by
  have hcapacity := h.capacity
  have hle := h.capacity_le
  omega

omit [LinearOrder K] [OrderTop K] in
theorem ahead_zeroOut {pos : ℕ} (hpos : pos < leaf.bitmapSize * 64) :
    ahead leaf (pos / 64) (zeroOut (leaf.bitmap.data (pos / 64)) (pos % 64)) =
      leaf.bitmap.filled pos (leaf.bitmapSize * 64) := by
  have hlo : pos / 64 * 64 + pos % 64 = pos := by omega
  rw [ahead, ones_zeroOut (by omega), hlo]
  exact filled_append (by omega) (by omega)

theorem ahead_data_zero (h : leaf.Readable) :
    ahead leaf 0 (leaf.bitmap.data 0) = leaf.bitmap.filled 0 (leaf.bitmapSize * 64) := by
  have hpos := size_pos h
  rw [ahead, ones_data]
  exact filled_append (by omega) (by omega)

theorem before_of_bit (hreadable : ∀ l ∈ leaf :: leaves, l.Readable) (hne : data ≠ 0)
    (hidx : idx < leaf.bitmapSize) (hahead : ∀ i ∈ ahead leaf idx data, i < leaf.dataCapacity) :
    Before ((ahead leaf idx data).filterMap leaf.entryAt ++ contents leaves)
      (some ⟨leaf, leaves, getOffset idx (extractRightmostOne data), idx,
        removeRightmostOne data⟩) := by
  have hcons : ahead leaf idx data =
      getOffset idx (extractRightmostOne data) :: ahead leaf idx (removeRightmostOne data) := by
    rw [ahead, ones_eq_cons hne, List.cons_append, ahead]
  rw [hcons] at hahead ⊢
  obtain ⟨payload, hentry⟩ :=
    (hreadable leaf List.mem_cons_self).entryAt_eq (hahead _ List.mem_cons_self)
  rw [List.filterMap_cons_some hentry]
  exact Before.some (c := ⟨leaf, leaves, getOffset idx (extractRightmostOne data), idx,
    removeRightmostOne data⟩) hreadable hidx hentry fun i hi => hahead i (List.mem_cons_of_mem _ hi)

theorem before_of_word (hreadable : ∀ l ∈ leaf :: leaves, l.Readable)
    (hidx : idx < leaf.bitmapSize) (hahead : ∀ i ∈ ahead leaf idx data, i < leaf.dataCapacity)
    {next : Option (Cursor K P)} (hnext : Before (contents leaves) next) :
    Before ((ahead leaf idx data).filterMap leaf.entryAt ++ contents leaves)
      (match skipEmpty leaf.bitmap (leaf.bitmapSize - (idx + 1)) idx data with
      | some (idx, data) => some ⟨leaf, leaves, getOffset idx (extractRightmostOne data), idx,
          removeRightmostOne data⟩
      | none => next) := by
  have hfront := @skipEmpty_inFront leaf.bitmap leaf.bitmapSize idx data
    (leaf.bitmapSize - (idx + 1)) (by omega)
  rw [← ahead] at hfront
  generalize skipEmpty leaf.bitmap (leaf.bitmapSize - (idx + 1)) idx data = r at hfront ⊢
  cases hfront with
  | none hnil =>
    rw [hnil]
    exact hnext
  | some hne hlt heq =>
    rw [← ahead] at heq
    rw [heq] at hahead ⊢
    exact before_of_bit hreadable hne hlt hahead

theorem advance_before (hreadable : ∀ l ∈ leaf :: leaves, l.Readable)
    (hidx : idx < leaf.bitmapSize) (hahead : ∀ i ∈ ahead leaf idx data, i < leaf.dataCapacity) :
    Before ((ahead leaf idx data).filterMap leaf.entryAt ++ contents leaves)
      (advance leaf leaves idx data) := by
  induction leaves generalizing leaf idx data with
  | nil =>
    rw [advance]
    exact before_of_word hreadable hidx hahead .none
  | cons nextLeaf leaves ih =>
    have hnext := hreadable nextLeaf (by simp)
    have hzero := ahead_data_zero hnext
    have hrest := @ih nextLeaf 0 (nextLeaf.bitmap.data 0)
      (fun l hl => hreadable l (List.mem_cons_of_mem _ hl)) (size_pos hnext)
      fun i hi => hnext.filled_le (hzero ▸ hi)
    rw [hzero, ← DataNode.entriesFrom, ← hnext.entries_eq] at hrest
    rw [advance]
    exact before_of_word hreadable hidx hahead hrest

theorem scanFrom_eq {entries : List (K × P)} {cursor : Option (Cursor K P)}
    (h : Before entries cursor) (n : ℕ) : scanFrom n cursor = some (entries.take n) := by
  induction n generalizing entries cursor with
  | zero => rfl
  | succ n ih =>
    cases h with
    | none => rfl
    | some hreadable hidx hentry hahead =>
      have hrest := ih (advance_before hreadable hidx hahead)
      simp [scanFrom, hentry, hrest]

theorem iterator_before (hreadable : ∀ l ∈ leaf :: leaves, l.Readable) (pos : ℕ) :
    Before (leaf.entriesFrom pos ++ contents leaves) (iterator leaf leaves pos) := by
  have hleaf := hreadable leaf List.mem_cons_self
  have hcapacity := hleaf.capacity_le
  simp only [iterator]
  split
  case isTrue hge =>
    rw [hleaf.entriesFrom_of_ge hge, List.nil_append]
    cases leaves with
    | nil => exact .none
    | cons nextLeaf rest =>
      have hnext := hreadable nextLeaf (by simp)
      have hzero := @ahead_zeroOut K P nextLeaf 0 (Nat.mul_pos (size_pos hnext) (by decide))
      have hbefore := @advance_before K P _ _ nextLeaf rest 0 _
        (fun l hl => hreadable l (List.mem_cons_of_mem _ hl)) (size_pos hnext)
        fun i hi => hnext.filled_le (hzero ▸ hi)
      rw [hzero, ← DataNode.entriesFrom, ← hnext.entries_eq] at hbefore
      exact hbefore
  case isFalse hlt =>
    have hzero := @ahead_zeroOut K P leaf pos (by omega)
    have hbefore := advance_before hreadable (show pos / 64 < leaf.bitmapSize by omega)
      fun i hi => hleaf.filled_le (hzero ▸ hi)
    rw [hzero, ← DataNode.entriesFrom] at hbefore
    exact hbefore

omit [LinearOrder K] [OrderTop K] in
theorem filled_of_head {bits : Bitmap} {lo hi pos : ℕ} {rest : List ℕ}
    (h : bits.filled lo hi = pos :: rest) : bits.filled pos hi = bits.filled lo hi := by
  have hmem : pos ∈ bits.filled lo hi := by
    rw [h]
    exact List.mem_cons_self
  obtain ⟨hlo, hhi, -⟩ := mem_filled.mp hmem
  rw [← filled_append hlo hhi.le] at h ⊢
  cases hfront : bits.filled lo pos with
  | nil => rfl
  | cons i front =>
    rw [hfront, List.cons_append, List.cons.injEq] at h
    have hi : i ∈ bits.filled lo pos := by
      rw [hfront]
      exact List.mem_cons_self
    have hlt := (mem_filled.mp hi).2.1
    omega

theorem entriesFrom_getNextFilledPosition (outside : BitVec 64) (h : leaf.Readable) (pos : ℕ) :
    leaf.entriesFrom (getNextFilledPosition outside leaf pos) = leaf.entriesFrom pos := by
  simp only [getNextFilledPosition]
  by_cases hidx : pos / 64 < leaf.bitmapSize
  · have hfront := @skipEmpty_inFront leaf.bitmap leaf.bitmapSize (pos / 64)
      (zeroOut (leaf.bitmap.data (pos / 64)) (pos % 64)) (leaf.bitmapSize - (pos / 64 + 1))
      (by omega)
    rw [← ahead, ahead_zeroOut (by omega)] at hfront
    rw [if_pos hidx]
    generalize skipEmpty leaf.bitmap (leaf.bitmapSize - (pos / 64 + 1)) (pos / 64)
      (zeroOut (leaf.bitmap.data (pos / 64)) (pos % 64)) = r at hfront ⊢
    cases hfront with
    | none hnil =>
      rw [h.entriesFrom_of_ge le_rfl, DataNode.entriesFrom, hnil]
      rfl
    | some hne hlt heq =>
      rw [ones_eq_cons hne, List.cons_append] at heq
      rw [DataNode.entriesFrom, DataNode.entriesFrom, filled_of_head heq]
  · have hcapacity := h.capacity_le
    have hbehind : leaf.bitmapSize - (pos / 64 + 1) = 0 := by omega
    rw [if_neg hidx, hbehind, skipEmpty, h.entriesFrom_of_ge (show leaf.dataCapacity ≤ pos by omega)]
    split
    · exact h.entriesFrom_of_ge le_rfl
    · next idx data hsome =>
      refine h.entriesFrom_of_ge ?_
      split at hsome
      · cases hsome
      · cases hsome
        rw [getOffset]
        omega

theorem lowerBound_spec (h : leaf.Readable) (key : K) : ∃ b, lowerBound leaf key = some b ∧
    IsBound (fun i => decide (key ≤ leaf.arrays.key i)) leaf.dataCapacity b := by
  have hmono : ∀ x y : K, x ≤ y → decide (key ≤ x) = true → decide (key ≤ y) = true := by
    intro x y hxy hx
    rw [decide_eq_true_iff] at hx ⊢
    exact hx.trans hxy
  exact DataNode.search_spec hmono h.sound (DataNode.predictPosition_lt key h.capacity)

theorem scan_eq_counted (outside : BitVec 64) (hreadable : ∀ l ∈ leaf :: leaves, l.Readable) (key : K)
    (n : ℕ) : scan outside leaf leaves key n =
      counted ((leaf.entries.filter (fun e => decide (key ≤ e.1)) ++ contents leaves).take n) := by
  have hleaf := hreadable leaf List.mem_cons_self
  obtain ⟨b, hlower, hbound⟩ := lowerBound_spec hleaf key
  have hbefore := iterator_before hreadable (getNextFilledPosition outside leaf b)
  rw [entriesFrom_getNextFilledPosition outside hleaf b,
    hleaf.entriesFrom_bound (q := fun x => decide (key ≤ x)) hbound] at hbefore
  simp [scan, findLower, hlower, scanFrom_eq hbefore]

end LearnedIndexFramework.Alex
