import LearnedIndexFramework.Alexol.Iterator
import LearnedIndexFramework.Alexol.WellFormed

/-! Scans over the leaves of the concurrent ALEX, one leaf after the other, with nobody else at
work. -/

namespace LearnedIndexFramework.Alexol

open Lib

variable {K P : Type} [LinearOrder K] [OrderTop K]

/-- A result that is counted in an `int`.  `none` is an overflow. -/
def counted (result : List (K × P)) : Option (List (K × P)) :=
  if result.length < 2 ^ 31 then some result else none

namespace DataNode

variable (node : DataNode K P)

def entryAt (pos : ℕ) : Option (K × P) :=
  node.keySlots[pos]?.bind fun key => node.payloadSlots[pos]?.map fun payload => (key, payload)

def firstKey : K :=
  (((List.range node.dataCapacity).find? node.bitmap.bit).bind fun i => node.keySlots[i]?).getD ⊤

def scanFrom : ℕ → Iterator → Option (List (K × P))
  | 0, _ => some []
  | toScan + 1, iter =>
    match iter.curIdx with
    | none => some []
    | some pos => do
      let entry ← node.entryAt pos
      let rest ← scanFrom toScan (iter.next node.bitmap node.bitmapSize)
      return entry :: rest

/-- The part of `range_scan_by_size` within a leaf. -/
def scanLeaf (key : K) (toScan : ℕ) : Option (List (K × P)) := do
  -- a lock that nobody releases is tested for ever
  if node.locked then none
  let upperBound ← node.upperBound key
  let iter ← Iterator.start node.bitmap node.bitmapSize (upperBound - 1)
  let result ← node.scanFrom toScan iter
  counted result

end DataNode

def rangeScanBySize : DataNode K P → List (DataNode K P) → K → ℕ → Option (List (K × P))
  | node, [], key, toScan => node.scanLeaf key toScan
  | node, nextLeaf :: leaves, key, toScan => do
    let result ← node.scanLeaf key toScan
    let scanned := result.length
    if scanned < toScan then
      let rest ← rangeScanBySize nextLeaf leaves nextLeaf.firstKey (toScan - scanned)
      counted (result ++ rest)
    else return result

/-- `alexolInterface::scan` from the leaf of the key on. -/
def scan (leaf : DataNode K P) (leaves : List (DataNode K P)) (keyLowBound : K) (keyNum : ℕ) :
    Option (List (K × P)) :=
  rangeScanBySize leaf leaves keyLowBound (keyNum % 2 ^ 32)

namespace DataNode

structure Readable (node : DataNode K P) : Prop where
  sound : Sound node.dataCapacity node.arrays node.numKeys
  capacity : 0 < node.dataCapacity
  size : node.bitmapSize = bitmapSizeFor node.dataCapacity
  unlocked : node.locked = false

theorem Inv.readable {node : DataNode K P} (h : node.Inv) (hlocked : node.locked = false) :
    node.Readable :=
  ⟨h.sound, h.capacity, h.size, hlocked⟩

variable {node : DataNode K P}

def entriesFrom (node : DataNode K P) (pos : ℕ) : List (K × P) :=
  (node.bitmap.filled pos (node.bitmapSize * 64)).filterMap node.entryAt

section Readable

variable (h : node.Readable)

include h

theorem Readable.capacity_le : node.dataCapacity ≤ node.bitmapSize * 64 := by
  rw [h.size, Nat.mul_comm]
  exact le_bits node.dataCapacity

theorem Readable.lt_of_bit {i : ℕ} (hbit : node.bitmap.bit i = true) : i < node.dataCapacity := by
  by_contra hge
  have hrest : node.bitmap.bit i = false := h.sound.rest i (Nat.le_of_not_lt hge)
  rw [hrest] at hbit
  cases hbit

theorem Readable.entryAt_eq {i : ℕ} (hi : i < node.dataCapacity) :
    ∃ payload, node.entryAt i = some (node.arrays.key i, payload) := by
  have hkey : node.keySlots[i]? = some (node.arrays.key i) := h.sound.getElem?_key hi
  have hlength : i < node.payloadSlots.length := h.sound.payloads ▸ hi
  refine ⟨node.payloadSlots[i], ?_⟩
  rw [entryAt, hkey, Option.bind_some, List.getElem?_eq_getElem hlength, Option.map_some]

theorem Readable.scanFrom_eq {it : Iterator} (hinside : it.Inside node.bitmapSize)
    (hvisits : ∀ i ∈ it.visits node.bitmap node.bitmapSize, i < node.dataCapacity) (n : ℕ) :
    node.scanFrom n it =
      some (((it.visits node.bitmap node.bitmapSize).filterMap node.entryAt).take n) := by
  induction n generalizing it with
  | zero => rfl
  | succ n ih =>
    rw [scanFrom]
    cases hcur : it.curIdx with
    | none => simp [Iterator.visits, hcur]
    | some pos =>
      have hidx : it.curBitmapIdx < node.bitmapSize := hinside (by simp [hcur])
      obtain ⟨hnext, hinside'⟩ := @Iterator.next_spec node.bitmap _ _ hidx
      have hcons : it.visits node.bitmap node.bitmapSize =
          pos :: (it.next node.bitmap node.bitmapSize).visits node.bitmap node.bitmapSize := by
        rw [hnext, Iterator.visits, hcur]
      rw [hcons] at hvisits ⊢
      obtain ⟨payload, hentry⟩ := h.entryAt_eq (hvisits pos List.mem_cons_self)
      have hrest := ih hinside' fun i hi => hvisits i (List.mem_cons_of_mem pos hi)
      simp [hentry, hrest]

theorem Readable.filled_le {lo hi i : ℕ} (hi : i ∈ node.bitmap.filled lo hi) :
    i < node.dataCapacity :=
  h.lt_of_bit (mem_filled.mp hi).2.2

theorem Readable.mem_filterMap {lo hi : ℕ} {e : K × P}
    (he : e ∈ (node.bitmap.filled lo hi).filterMap node.entryAt) :
    ∃ i, lo ≤ i ∧ i < hi ∧ node.bitmap.bit i = true ∧ e.1 = node.arrays.key i := by
  obtain ⟨i, hmem, hentry⟩ := List.mem_filterMap.mp he
  obtain ⟨hlo, hhi, hbit⟩ := mem_filled.mp hmem
  obtain ⟨payload, heq⟩ := h.entryAt_eq (h.lt_of_bit hbit)
  rw [heq] at hentry
  cases hentry
  exact ⟨i, hlo, hhi, hbit, rfl⟩

theorem Readable.filled_of_ge {lo hi : ℕ} (hlo : node.dataCapacity ≤ lo) :
    node.bitmap.filled lo hi = [] := by
  rw [List.eq_nil_iff_forall_not_mem]
  intro i hi
  have hlt := h.filled_le hi
  have hge := (mem_filled.mp hi).1
  omega

theorem Readable.entriesFrom_of_ge {pos : ℕ} (hpos : node.dataCapacity ≤ pos) :
    node.entriesFrom pos = [] := by
  rw [entriesFrom, h.filled_of_ge hpos]
  rfl

theorem Readable.entries_eq : node.entries = node.entriesFrom 0 := by
  rw [entriesFrom, ← filled_append (Nat.zero_le _) h.capacity_le, h.filled_of_ge le_rfl,
    List.append_nil, Bitmap.filled, List.filterMap_filter, entries, List.range_eq_range', Nat.sub_zero]
  rfl

omit h [LinearOrder K] [OrderTop K] in
theorem entriesFrom_eq {lo mid : ℕ} (hlo : lo ≤ mid) (hmid : mid ≤ node.bitmapSize * 64) :
    node.entriesFrom lo =
      (node.bitmap.filled lo mid).filterMap node.entryAt ++ node.entriesFrom mid := by
  rw [entriesFrom, ← filled_append hlo hmid, List.filterMap_append, entriesFrom]

theorem Readable.entriesFrom_bound {q : K → Bool} {b : ℕ}
    (hbound : IsBound (fun i => q (node.arrays.key i)) node.dataCapacity b) :
    node.entriesFrom b = node.entries.filter fun e => q e.1 := by
  have hcapacity := h.capacity_le
  have hle := hbound.le
  rw [h.entries_eq, entriesFrom_eq (Nat.zero_le b) (hle.trans hcapacity), List.filter_append]
  have hbelow : ((node.bitmap.filled 0 b).filterMap node.entryAt).filter (fun e => q e.1) = [] := by
    rw [List.filter_eq_nil_iff]
    intro e he
    obtain ⟨i, -, hi, -, hkey⟩ := h.mem_filterMap he
    rw [hkey, hbound.below i hi]
    exact Bool.false_ne_true
  rw [hbelow, List.nil_append, eq_comm, List.filter_eq_self]
  intro e he
  obtain ⟨i, hi, -, hbit, hkey⟩ := h.mem_filterMap he
  rw [hkey]
  exact hbound.above i hi (h.lt_of_bit hbit)

theorem Readable.entriesFrom_succ {i : ℕ} (hi : i < node.dataCapacity) :
    (node.bitmap.bit i = false ∧ node.entriesFrom i = node.entriesFrom (i + 1)) ∨
    (node.bitmap.bit i = true ∧ ∃ payload,
      node.entriesFrom i = (node.arrays.key i, payload) :: node.entriesFrom (i + 1)) := by
  have hcapacity := h.capacity_le
  have hone : node.bitmap.filled i (i + 1) = if node.bitmap.bit i then [i] else [] := by
    rw [Bitmap.filled, Nat.add_sub_cancel_left, List.range'_one, List.filter_cons]
    rfl
  rw [entriesFrom_eq (Nat.le_succ i) (by omega), hone]
  cases hbit : node.bitmap.bit i with
  | false => exact .inl ⟨rfl, rfl⟩
  | true =>
    obtain ⟨payload, hentry⟩ := h.entryAt_eq hi
    refine .inr ⟨rfl, payload, ?_⟩
    rw [if_pos rfl, List.filterMap_cons_some hentry]
    rfl

theorem Readable.upperBound_spec (key : K) : ∃ b, node.upperBound key = some b ∧
    IsBound (fun i => decide (node.arrays.key i > key)) node.dataCapacity b := by
  have hmono : ∀ x y : K, x ≤ y → decide (x > key) = true → decide (y > key) = true := by
    intro x y hxy hx
    rw [decide_eq_true_iff] at hx ⊢
    exact lt_of_lt_of_le hx hxy
  exact search_spec hmono h.sound (predictPosition_lt key h.capacity)

theorem Readable.firstKey_eq : node.firstKey = node.arrays.key 0 := by
  rw [firstKey]
  cases hfind : (List.range node.dataCapacity).find? node.bitmap.bit with
  | some j =>
    rw [List.range_eq_range'] at hfind
    obtain ⟨-, hmem, hbefore⟩ := List.find?_range'_eq_some.mp hfind
    rw [List.mem_range'_1] at hmem
    have hslot : node.keySlots[j]? = some (node.arrays.key j) :=
      h.sound.getElem?_key (by omega)
    rw [Option.bind_some, hslot, Option.getD_some]
    refine (h.sound.gapped.eq_of_gaps (Nat.zero_le j) fun t _ htj => ?_).symm
    exact Bool.not_eq_true' _ ▸ hbefore t (Nat.zero_le t) htj
  | none =>
    rw [List.find?_range_eq_none] at hfind
    rw [Option.bind_none, Option.getD_none, ← h.sound.key_eq_top le_rfl]
    refine (h.sound.gapped.eq_of_gaps (Nat.zero_le _) fun t _ htc => ?_).symm
    exact Bool.not_eq_true' _ ▸ hfind t htc

end Readable

def reached (node : DataNode K P) (key : K) : List (K × P) :=
  node.entriesFrom ((node.upperBound key).getD 0 - 1)

end DataNode

omit [LinearOrder K] [OrderTop K] in
theorem counted_of_lt {result : List (K × P)} (h : result.length < 2 ^ 31) :
    counted result = some result := if_pos h

omit [LinearOrder K] [OrderTop K] in
theorem counted_of_ge {result : List (K × P)} (h : ¬ result.length < 2 ^ 31) :
    counted result = none := if_neg h

omit [LinearOrder K] [OrderTop K] in
theorem counted_eq_some {result result' : List (K × P)} :
    counted result = some result' ↔ result = result' ∧ result.length < 2 ^ 31 := by
  by_cases h : result.length < 2 ^ 31
  · simp only [counted_of_lt h, Option.some_inj, h, and_true]
  · simp only [counted_of_ge h, h, and_false, reduceCtorEq]

namespace DataNode

variable {node : DataNode K P}

section Leaf

variable (h : node.Readable)

include h

theorem Readable.firstKey_le_iff {key : K} {b : ℕ}
    (hbound : IsBound (fun i => decide (node.arrays.key i > key)) node.dataCapacity b) :
    node.firstKey ≤ key ↔ 0 < b := by
  rw [h.firstKey_eq]
  constructor
  · intro hle
    by_contra hzero
    have habove := hbound.above 0 (by omega) h.capacity
    exact absurd hle (not_le.mpr (of_decide_eq_true habove))
  · intro hpos
    exact not_lt.mp (of_decide_eq_false (hbound.below 0 hpos))

theorem Readable.scanLeaf_eq (key : K) (n : ℕ) : node.scanLeaf key n =
    if node.firstKey ≤ key then counted ((node.reached key).take n) else none := by
  obtain ⟨b, hupper, hbound⟩ := h.upperBound_spec key
  have hle := hbound.le
  have hcapacity := h.capacity_le
  simp only [scanLeaf, h.unlocked, hupper, Bool.false_eq_true, ↓reduceIte, Option.bind_eq_bind,
    Option.bind_some]
  by_cases hfirst : node.firstKey ≤ key
  · have hpos := (h.firstKey_le_iff hbound).mp hfirst
    have hcast : (b : ℤ) - 1 = (b - 1 : ℕ) := by omega
    obtain ⟨it, hstart, hvisits, hinside⟩ :=
      @Iterator.start_spec node.bitmap node.bitmapSize (b - 1) (by omega)
    have hscan := h.scanFrom_eq hinside (n := n) fun i hi => h.filled_le (hvisits ▸ hi)
    rw [if_pos hfirst, hcast, hstart, Option.bind_some, hscan, hvisits, Option.bind_some, reached,
      hupper]
    rfl
  · have hzero : b = 0 := by
      by_contra hne
      exact hfirst ((h.firstKey_le_iff hbound).mpr (Nat.pos_of_ne_zero hne))
    rw [if_neg hfirst, hzero]
    have hneg : ((0 : ℕ) : ℤ) - 1 = -1 := rfl
    rw [hneg, Iterator.start_neg, Option.bind_none]

theorem Readable.reached_cases {key : K} (hfirst : node.firstKey ≤ key) :
    (key = ⊤ ∧ node.bitmap.bit (node.dataCapacity - 1) = false ∧ node.reached key = []) ∨
    ∃ e ∈ node.entries, node.reached key = e :: node.entries.filter (fun e => decide (key < e.1)) ∧
      e.1 ≤ key ∧ (∀ e' ∈ node.entries, e'.1 ≤ key → e'.1 ≤ e.1) ∧
      (key = ⊤ → node.bitmap.bit (node.dataCapacity - 1) = true) := by
  obtain ⟨b, hupper, hbound⟩ := h.upperBound_spec key
  have hpos := (h.firstKey_le_iff hbound).mp hfirst
  have hle := hbound.le
  have hcapacity := h.capacity_le
  have hbelow := not_lt.mp (of_decide_eq_false (hbound.below (b - 1) (by omega)))
  have hrest := h.entriesFrom_bound (q := fun x => decide (x > key)) hbound
  have hreached : node.reached key = node.entriesFrom (b - 1) := by
    rw [reached, hupper, Option.getD_some]
  have hsucc := h.entriesFrom_succ (i := b - 1) (by omega)
  rw [Nat.sub_add_cancel hpos, hrest] at hsucc
  rw [hreached]
  have hlast : key = ⊤ → b = node.dataCapacity := by
    rintro rfl
    by_contra hne
    exact not_top_lt (of_decide_eq_true (hbound.above b le_rfl (by omega)))
  obtain ⟨hgap, heq⟩ | ⟨hbit, payload, heq⟩ := hsucc
  · have hnext := h.sound.gapped.gap (b - 1) hgap
    rw [Nat.sub_add_cancel hpos] at hnext
    rw [hnext] at hbelow
    have htop : key = ⊤ := by
      by_contra hne
      rcases Nat.lt_or_ge b node.dataCapacity with hlt | hge
      · exact absurd hbelow (not_le.mpr (of_decide_eq_true (hbound.above b le_rfl hlt)))
      · rw [h.sound.key_eq_top hge, top_le_iff] at hbelow
        exact hne hbelow
    refine .inl ⟨htop, hlast htop ▸ hgap, ?_⟩
    rw [heq, htop]
    simp
  · refine .inr ⟨(node.arrays.key (b - 1), payload), ?_, heq, hbelow, ?_, ?_⟩
    · rw [h.entries_eq, entriesFrom_eq (Nat.zero_le (b - 1)) (by omega), heq]
      exact List.mem_append_right _ List.mem_cons_self
    · intro e he hkey
      rw [h.entries_eq] at he
      obtain ⟨i, -, -, hi, heq⟩ := h.mem_filterMap he
      rw [heq] at hkey ⊢
      refine h.sound.gapped.mono ?_
      by_contra hgt
      have habove := hbound.above i (by omega) (h.lt_of_bit hi)
      exact absurd hkey (not_le.mpr (of_decide_eq_true habove))
    · intro htop
      rw [← hlast htop]
      exact hbit

omit h [OrderTop K] in
theorem filter_le_eq_cons {l : List (K × P)} {e : K × P} (hsorted : l.Pairwise fun a b => a.1 < b.1)
    (he : e ∈ l) : l.filter (fun a => decide (e.1 ≤ a.1)) =
      e :: l.filter fun a => decide (e.1 < a.1) := by
  induction l with
  | nil => cases he
  | cons a l ih =>
    obtain ⟨hlt, hrest⟩ := List.pairwise_cons.mp hsorted
    obtain rfl | he := List.mem_cons.mp he
    · have htail : l.filter (fun b => decide (e.1 ≤ b.1)) = l.filter fun b => decide (e.1 < b.1) :=
        List.filter_congr fun b hb => by simp [hlt b hb, (hlt b hb).le]
      simp [htail]
    · have hgt := hlt e he
      rw [List.filter_cons_of_neg (by simpa using hgt),
        List.filter_cons_of_neg (by simpa using hgt.le), ih hrest he]

theorem Readable.reached_of_not_stored {key : K} (hnot : ¬ ∃ e ∈ node.entries, e.1 = key)
    (hfirst : node.firstKey ≤ key)
    (htop : key = ⊤ → node.bitmap.bit (node.dataCapacity - 1) = true) :
    ∃ e rest, node.reached key = e :: rest ∧ e.1 < key := by
  obtain ⟨rfl, hgap, -⟩ | ⟨e, he, heq, hle, -, -⟩ := h.reached_cases hfirst
  · rw [htop rfl] at hgap
    cases hgap
  · exact ⟨e, _, heq, hle.lt_of_ne fun hkey => hnot ⟨e, he, hkey⟩⟩

theorem Readable.reached_of_gap (hgap : node.bitmap.bit (node.dataCapacity - 1) = false) :
    node.reached ⊤ = [] := by
  obtain ⟨-, -, hnil⟩ | ⟨e, -, -, -, -, hbit⟩ := h.reached_cases (show node.firstKey ≤ ⊤ from le_top)
  · exact hnil
  · rw [hbit rfl] at hgap
    cases hgap

theorem Readable.firstKey_le {e : K × P} (he : e ∈ node.entries) : node.firstKey ≤ e.1 := by
  rw [h.entries_eq] at he
  obtain ⟨i, -, -, -, hkey⟩ := h.mem_filterMap he
  rw [h.firstKey_eq, hkey]
  exact h.sound.gapped.mono (Nat.zero_le i)

theorem Readable.exists_firstKey (hne : node.entries ≠ []) :
    ∃ e ∈ node.entries, e.1 = node.firstKey := by
  obtain ⟨htop, -, -⟩ | ⟨e, he, -, hle, -, -⟩ := h.reached_cases le_rfl
  · obtain ⟨e, he⟩ := List.exists_mem_of_ne_nil _ hne
    exact ⟨e, he, le_antisymm (htop ▸ le_top) (h.firstKey_le he)⟩
  · exact ⟨e, he, le_antisymm hle (h.firstKey_le he)⟩

variable (hsorted : node.entries.Pairwise fun a b => a.1 < b.1)

include hsorted

theorem Readable.reached_of_stored {key : K} (hstored : ∃ e ∈ node.entries, e.1 = key)
    (hfirst : node.firstKey ≤ key)
    (htop : key = ⊤ → node.bitmap.bit (node.dataCapacity - 1) = true) :
    node.reached key = node.entries.filter fun e => decide (key ≤ e.1) := by
  obtain ⟨rfl, hgap, -⟩ | ⟨e, he, heq, hle, hgreatest, -⟩ := h.reached_cases hfirst
  · rw [htop rfl] at hgap
    cases hgap
  · obtain ⟨e', he', hkey⟩ := hstored
    obtain rfl : e.1 = key := le_antisymm hle (hkey ▸ hgreatest e' he' hkey.le)
    rw [heq, filter_le_eq_cons hsorted he]

end Leaf

def HidesTop (node : DataNode K P) : Prop :=
  node.firstKey = ⊤ ∧ node.entries ≠ [] ∧ node.bitmap.bit (node.dataCapacity - 1) = false

theorem Readable.reached_firstKey (h : node.Readable)
    (hsorted : node.entries.Pairwise fun a b => a.1 < b.1) (hnot : ¬ node.HidesTop) :
    node.reached node.firstKey = node.entries := by
  by_cases hne : node.entries = []
  · obtain ⟨-, -, hnil⟩ | ⟨e, he, -⟩ := h.reached_cases le_rfl
    · rw [hnil, hne]
    · rw [hne] at he
      cases he
  · have hbit : node.firstKey = ⊤ → node.bitmap.bit (node.dataCapacity - 1) = true := by
      intro htop
      by_contra hgap
      exact hnot ⟨htop, hne, Bool.eq_false_iff.mpr hgap⟩
    rw [h.reached_of_stored hsorted (h.exists_firstKey hne) le_rfl hbit, List.filter_eq_self]
    intro e he
    exact decide_eq_true (h.firstKey_le he)

theorem HidesTop.entries_eq (hhides : node.HidesTop) (h : node.Readable)
    (hsorted : node.entries.Pairwise fun a b => a.1 < b.1) :
    ∃ e, node.entries = [e] ∧ e.1 = ⊤ := by
  obtain ⟨htop, hne, -⟩ := hhides
  have hall : ∀ e ∈ node.entries, e.1 = ⊤ := by
    intro e he
    exact top_le_iff.mp (htop ▸ h.firstKey_le he)
  cases hentries : node.entries with
  | nil => exact absurd hentries hne
  | cons e rest =>
    rw [hentries] at hsorted hall
    obtain ⟨hlt, -⟩ := List.pairwise_cons.mp hsorted
    have htop' := hall e List.mem_cons_self
    cases rest with
    | nil => exact ⟨e, rfl, htop'⟩
    | cons e' rest => exact absurd (hlt e' List.mem_cons_self) (htop' ▸ not_top_lt)

end DataNode

/-! ### Chains of leaves -/

def contents (leaves : List (DataNode K P)) : List (K × P) := leaves.flatMap DataNode.entries

structure Chain (leaves : List (DataNode K P)) : Prop where
  readable : ∀ leaf ∈ leaves, leaf.Readable
  ascending : (contents leaves).Pairwise fun a b => a.1 < b.1

section Chain

variable {node : DataNode K P} {leaves : List (DataNode K P)}

def reachedBehind (leaves : List (DataNode K P)) : List (K × P) :=
  leaves.flatMap fun leaf => leaf.reached leaf.firstKey

omit [LinearOrder K] [OrderTop K] in
theorem counted_append {result rest : List (K × P)} {n : ℕ} :
    (counted (result.take n) >>= fun result => if result.length < n then
      counted (rest.take (n - result.length)) >>= fun rest => counted (result ++ rest)
      else some result) = counted ((result ++ rest).take n) := by
  rw [List.take_append]
  by_cases hcounted : (result.take n).length < 2 ^ 31
  · rw [counted_of_lt hcounted, Option.bind_eq_bind, Option.bind_some]
    by_cases hmore : (result.take n).length < n
    · rw [if_pos hmore]
      rw [List.length_take] at hmore
      rw [List.take_of_length_le (show result.length ≤ n by omega)]
      by_cases hrest : (rest.take (n - result.length)).length < 2 ^ 31
      · rw [counted_of_lt hrest, Option.bind_some]
      · rw [counted_of_ge hrest, counted_of_ge]
        · rfl
        · rw [List.length_append]
          omega
    · rw [if_neg hmore]
      rw [List.length_take] at hmore
      rw [Nat.sub_eq_zero_of_le (show n ≤ result.length by omega), List.take_zero,
        List.append_nil, counted_of_lt hcounted]
  · rw [counted_of_ge hcounted, counted_of_ge]
    · rfl
    · rw [List.length_append]
      omega

theorem rangeScanBySize_eq (hreadable : ∀ leaf ∈ node :: leaves, leaf.Readable) (key : K) (n : ℕ) :
    rangeScanBySize node leaves key n = if node.firstKey ≤ key
      then counted ((node.reached key ++ reachedBehind leaves).take n) else none := by
  induction leaves generalizing node key n with
  | nil =>
    rw [rangeScanBySize, (hreadable node List.mem_cons_self).scanLeaf_eq, reachedBehind,
      List.flatMap_nil, List.append_nil]
  | cons nextLeaf leaves ih =>
    have hrest := ih (fun leaf hleaf => hreadable leaf (List.mem_cons_of_mem node hleaf))
      nextLeaf.firstKey
    rw [rangeScanBySize, (hreadable node List.mem_cons_self).scanLeaf_eq]
    split
    case isTrue =>
      have hcons : reachedBehind (nextLeaf :: leaves) =
          nextLeaf.reached nextLeaf.firstKey ++ reachedBehind leaves := by
        rw [reachedBehind, List.flatMap_cons, reachedBehind]
      simp only [hrest, le_refl, ↓reduceIte]
      rw [hcons]
      exact counted_append
    case isFalse => rfl

theorem Chain.of_cons (h : Chain (node :: leaves)) : Chain leaves where
  readable leaf hleaf := h.readable leaf (List.mem_cons_of_mem node hleaf)
  ascending := by
    have hascending := h.ascending
    rw [contents, List.flatMap_cons] at hascending
    exact (List.pairwise_append.mp hascending).2.1

theorem Chain.head (h : Chain (node :: leaves)) :
    node.Readable ∧ (node.entries.Pairwise fun a b => a.1 < b.1) ∧
      ∀ e ∈ node.entries, ∀ e' ∈ contents leaves, e.1 < e'.1 := by
  have hascending := h.ascending
  rw [contents, List.flatMap_cons] at hascending
  obtain ⟨hsorted, -, hbetween⟩ := List.pairwise_append.mp hascending
  exact ⟨h.readable node List.mem_cons_self, hsorted, hbetween⟩

theorem Chain.reachedBehind_eq (h : Chain leaves) (hnone : ∀ leaf ∈ leaves, ¬ leaf.HidesTop) :
    reachedBehind leaves = contents leaves := by
  induction leaves with
  | nil => rfl
  | cons node leaves ih =>
    obtain ⟨hreadable, hsorted, -⟩ := h.head
    have hrest := ih h.of_cons fun leaf hleaf => hnone leaf (List.mem_cons_of_mem node hleaf)
    rw [reachedBehind, List.flatMap_cons,
      hreadable.reached_firstKey hsorted (hnone node List.mem_cons_self), ← reachedBehind, hrest]
    rfl

theorem Chain.contents_eq (h : Chain leaves) (hsome : ∃ leaf ∈ leaves, leaf.HidesTop) :
    ∃ e, contents leaves = reachedBehind leaves ++ [e] := by
  induction leaves with
  | nil => simp at hsome
  | cons node leaves ih =>
    obtain ⟨hreadable, hsorted, hbetween⟩ := h.head
    have hcontents : contents (node :: leaves) = node.entries ++ contents leaves :=
      List.flatMap_cons
    have hbehind : reachedBehind (node :: leaves) =
        node.reached node.firstKey ++ reachedBehind leaves := List.flatMap_cons
    rw [hcontents, hbehind]
    by_cases hhides : node.HidesTop
    · obtain ⟨e, hentries, htop⟩ := hhides.entries_eq hreadable hsorted
      have hnil : contents leaves = [] := by
        rw [List.eq_nil_iff_forall_not_mem]
        intro e' he'
        have hlt := hbetween e (by simp [hentries]) e' he'
        rw [htop] at hlt
        exact not_top_lt hlt
      have hnot : ∀ leaf ∈ leaves, ¬ leaf.HidesTop := by
        intro leaf hleaf hhides'
        exact hhides'.2.1 (List.flatMap_eq_nil_iff.mp hnil leaf hleaf)
      have hgap : node.reached node.firstKey = [] := by
        rw [hhides.1]
        exact hreadable.reached_of_gap hhides.2.2
      exact ⟨e, by rw [h.of_cons.reachedBehind_eq hnot, hgap, hnil, hentries]; rfl⟩
    · obtain ⟨leaf, hleaf, hhides'⟩ := hsome
      obtain rfl | hleaf := List.mem_cons.mp hleaf
      · exact absurd hhides' hhides
      · obtain ⟨e, heq⟩ := ih h.of_cons ⟨leaf, hleaf, hhides'⟩
        rw [hreadable.reached_firstKey hsorted hhides, heq]
        exact ⟨e, (List.append_assoc _ _ _).symm⟩

end Chain

end LearnedIndexFramework.Alexol
