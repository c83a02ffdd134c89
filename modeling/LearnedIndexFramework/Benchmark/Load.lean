import LearnedIndexFramework.Benchmark.Model
import LearnedIndexFramework.Lib.Fallible
import LearnedIndexFramework.Lib.Rounding

/-! What `load_keys` leaves behind.  Deduplication happens only when `data_shift` is off, and
the accesses stay inside the array only when it is long enough for them. -/

namespace LearnedIndexFramework.Benchmark

open Lib

variable {K : Type}

theorem readKeyFile_ne_nil {tableSize : ℤ} {file : KeyFile K} {array : List K}
    (h : readKeyFile tableSize file = .ok array) : array ≠ [] := by
  obtain ⟨keys, -, h⟩ := bind_eq_ok.mp h
  split at h
  · simp at h
  · next hpos =>
    obtain rfl : keys = array := Except.ok.inj h
    rintro rfl
    simp at hpos

def Oracle.still (key : K) (prob : ℕ → {q : ℚ // 0 ≤ q ∧ q < 1}) : Oracle K where
  shuffle xs := ⟨xs, .refl xs⟩
  leftover n := ⟨List.replicate n key, List.length_replicate⟩
  randomShuffle xs := ⟨xs, .refl xs⟩
  draw _ := 0
  prob := prob

def Oracle.idle (key : K) : Oracle K := .still key fun _ => ⟨0, by norm_num⟩

variable [LinearOrder K] {fl : ℚ → ℚ}

theorem isChain_lt {xs : List K} (hle : xs.Pairwise (· ≤ ·)) (hne : xs.IsChain (· ≠ ·)) :
    xs.IsChain (· < ·) := by
  induction xs with
  | nil => exact .nil
  | cons a xs ih =>
    cases xs with
    | nil => exact .singleton a
    | cons b xs =>
      rw [List.isChain_cons_cons] at hne ⊢
      have hab : a ≤ b := (List.pairwise_cons.mp hle).1 b (by simp)
      exact ⟨lt_of_le_of_ne hab hne.1, ih (List.pairwise_cons.mp hle).2 hne.2⟩

theorem sortUnique_pairwise (xs : List K) : (sortUnique xs).Pairwise (· < ·) := by
  have hle : (sortUnique xs).Pairwise (· ≤ ·) :=
    (List.pairwise_insertionSort (· ≤ ·) xs).sublist (List.destutter_sublist _ _)
  have hne : (sortUnique xs).IsChain (· ≠ ·) := List.isChain_destutter _ _
  exact (isChain_lt hle hne).pairwise

theorem sortUnique_nodup (xs : List K) : (sortUnique xs).Nodup :=
  (sortUnique_pairwise xs).imp fun h => h.ne

theorem mem_sortUnique {xs : List K} {x : K} : x ∈ sortUnique xs ↔ x ∈ xs := by
  have hdedup : sortUnique xs = (xs.insertionSort (· ≤ ·)).dedup :=
    (List.pairwise_insertionSort (· ≤ ·) xs).destutter_eq_dedup
  rw [hdedup, List.mem_dedup, (List.perm_insertionSort (· ≤ ·) xs).mem_iff]

theorem sortUnique_perm_dedup (xs : List K) : (sortUnique xs).Perm xs.dedup :=
  (List.perm_ext_iff_of_nodup (sortUnique_nodup xs) xs.nodup_dedup).mpr fun x => by
    rw [mem_sortUnique, List.mem_dedup]

theorem length_sortUnique_le (xs : List K) : (sortUnique xs).length ≤ xs.length := by
  have := (List.destutter_sublist (· ≠ ·) (xs.insertionSort (· ≤ ·))).length_le
  rwa [List.length_insertionSort] at this

theorem sortUnique_ne_nil {xs : List K} (h : xs ≠ []) : sortUnique xs ≠ [] := by
  intro hnil
  rw [sortUnique, List.destutter_eq_nil] at hnil
  have := List.length_insertionSort (· ≤ ·) xs
  rw [hnil] at this
  exact h (List.eq_nil_of_length_eq_zero this.symm)

def usedSize (flags : Flags fl) (array : List K) : ℕ :=
  if flags.dataShift then array.length else (sortUnique array).length

def initSize (flags : Flags fl) (array : List K) : ℤ :=
  truncate (flags.initProduct (usedSize flags array))

/-- The array is long enough for the ten keys that are printed and for the keys that are bulk
loaded, and an `int` can count the latter. -/
structure Loadable (flags : Flags fl) (array : List K) : Prop where
  printed : 10 ≤ array.length
  nonneg : 0 ≤ initSize flags array
  le_length : initSize flags array ≤ array.length
  lt_int : initSize flags array < 2 ^ 31

structure Oversized (flags : Flags fl) (array : List K) : Prop where
  printed : 10 ≤ array.length
  le_initSize : 2 ^ 60 ≤ initSize flags array
  initSize_lt : initSize flags array < 2 ^ 64

section Arrange

variable (flags : Flags fl) (o : Oracle K) (array : List K)

theorem arrange_snd : (arrange flags o array).2 = usedSize flags array := by
  unfold arrange usedSize
  split <;> rfl

theorem length_arrange : (arrange flags o array).1.length = array.length := by
  have := length_sortUnique_le array
  unfold arrange
  split
  · rfl
  · simp only [List.length_append, (o.shuffle (sortUnique array)).2.length_eq,
      (o.leftover (array.length - (sortUnique array).length)).2]
    omega

theorem usedSize_le : usedSize flags array ≤ array.length := by
  have := length_sortUnique_le array
  unfold usedSize
  split <;> omega

theorem take_arrange (h : flags.dataShift = false) :
    (arrange flags o array).1.take (usedSize flags array) = (o.shuffle (sortUnique array)).1 := by
  have hlen := (o.shuffle (sortUnique array)).2.length_eq
  simp only [arrange, usedSize, h, Bool.false_eq_true, if_false]
  rw [← hlen, List.take_left]

end Arrange

def loadedOf (flags : Flags fl) (o : Oracle K) (array : List K) : Loaded K :=
  let keys := (arrange flags o array).1
  let initTableSize := (initSize flags array).toNat
  let initKeys := (keys.take initTableSize).insertionSort (· ≤ ·)
  { keys, tableSize := usedSize flags array, initTableSize, initKeys
    initKeyValues := initKeys.map (·, 123456789) }

@[simp] theorem loadedOf_tableSize (flags : Flags fl) (o : Oracle K) (array : List K) :
    (loadedOf flags o array).tableSize = usedSize flags array := rfl

@[simp] theorem loadedOf_initTableSize (flags : Flags fl) (o : Oracle K) (array : List K) :
    (loadedOf flags o array).initTableSize = (initSize flags array).toNat := rfl

section Load

variable {flags : Flags fl} {o : Oracle K} {file : KeyFile K} {array : List K}

theorem toSizeT_eq {q : ℚ} (h0 : 0 ≤ truncate q) (h1 : truncate q < 2 ^ 64) :
    toSizeT q = .ok (truncate q).toNat := if_pos ⟨h0, h1⟩

theorem loadKeys_of_loadable (hread : readKeyFile flags.tableSize file = .ok array)
    (h : Loadable flags array) : loadKeys flags o file = .ok (loadedOf flags o array) := by
  obtain ⟨h10, h0, hle, hint⟩ := h
  have hlen := length_arrange flags o array
  have hconv : toSizeT (flags.initProduct (usedSize flags array)) =
      .ok (initSize flags array).toNat := toSizeT_eq h0 (hint.trans (by norm_num))
  have hten : readPrefix (arrange flags o array).1 10 = .ok ((arrange flags o array).1.take 10) :=
    if_pos (hlen ▸ h10)
  have hresize : resize (initSize flags array).toNat = .ok (initSize flags array).toNat :=
    if_pos (by omega)
  have hcopy : readPrefix (arrange flags o array).1 (initSize flags array).toNat =
      .ok ((arrange flags o array).1.take (initSize flags array).toNat) :=
    if_pos (by omega)
  have hcount : (((arrange flags o array).1.take (initSize flags array).toNat).insertionSort
      (· ≤ ·)).length < 2 ^ 31 := by
    rw [List.length_insertionSort, List.length_take]
    omega
  simp only [loadKeys, hread, arrange_snd, bind, Except.bind, hconv, hten, hresize, hcopy, hcount,
    if_true]
  rfl

theorem loadKeys_of_not_loadable (hread : readKeyFile flags.tableSize file = .ok array)
    (h : ¬ Loadable flags array) : ∃ f, loadKeys flags o file = .error f ∧ f ≠ .couldNotOpen ∧
      (f.ends = true ↔ Oversized flags array) := by
  have hlen := length_arrange flags o array
  simp only [loadKeys, hread, arrange_snd, bind, Except.bind]
  by_cases hsize : 0 ≤ initSize flags array ∧ initSize flags array < 2 ^ 64
  swap
  · have hconv : toSizeT (flags.initProduct (usedSize flags array)) = .error .conversion :=
      if_neg hsize
    refine ⟨.conversion, by simp only [hconv], by simp, iff_of_false (by simp [Fault.ends]) ?_⟩
    exact fun ⟨_, hbig, hlt⟩ => hsize ⟨by omega, hlt⟩
  have hconv : toSizeT (flags.initProduct (usedSize flags array)) =
      .ok (initSize flags array).toNat := toSizeT_eq hsize.1 hsize.2
  by_cases hten : 10 ≤ array.length
  swap
  · refine ⟨.outOfBounds, by simp only [readPrefix, hlen, hconv, if_neg hten], by simp, ?_⟩
    exact iff_of_false (by simp [Fault.ends]) fun hbig => hten hbig.printed
  by_cases hresize : (initSize flags array).toNat < 2 ^ 60
  swap
  · refine ⟨.length, by simp only [readPrefix, hlen, hconv, if_pos hten, resize, if_neg hresize],
      by simp, iff_of_true rfl ⟨hten, by omega, hsize.2⟩⟩
  have hbig : ¬ Oversized flags array := fun ⟨_, hbig, _⟩ => by omega
  by_cases hcopy : (initSize flags array).toNat ≤ array.length
  · have hcount : ¬ (((arrange flags o array).1.take
        (initSize flags array).toNat).insertionSort (· ≤ ·)).length < 2 ^ 31 := by
      rw [List.length_insertionSort, List.length_take]
      intro hlt
      exact h ⟨hten, hsize.1, by omega, by omega⟩
    exact ⟨.intOverflow, by simp only [readPrefix, hlen, hconv, if_pos hten, resize,
      if_pos hresize, if_pos hcopy, if_neg hcount], by simp, iff_of_false (by simp [Fault.ends]) hbig⟩
  · exact ⟨.outOfBounds, by simp only [readPrefix, hlen, hconv, if_pos hten, resize,
      if_pos hresize, if_neg hcopy], by simp, iff_of_false (by simp [Fault.ends]) hbig⟩

end Load

/-- What `index->bulk_load` and the later `INSERT`s rely on. -/
def BulkLoadContract : Except Fault (Loaded K) → Prop
  | .error f => f = .couldNotOpen
  | .ok l => l.initKeyValues.Pairwise (fun p q => p.1 < q.1) ∧
      ((l.keys.take l.tableSize).drop l.initTableSize).Nodup ∧
      ∀ key ∈ (l.keys.take l.tableSize).drop l.initTableSize, key ∉ l.initKeys

instance : DecidablePred (BulkLoadContract (K := K))
  | .error f => inferInstanceAs (Decidable (f = .couldNotOpen))
  | .ok _ => inferInstanceAs (Decidable (_ ∧ _ ∧ _))

/-- The file cannot be opened, or its keys are long enough for every access, the loaded part
lies within the keys in use, and under `data_shift` the file holds no key twice. -/
def FileFits (flags : Flags fl) (file : KeyFile K) : Prop :=
  match readKeyFile flags.tableSize file with
  | .error f => f = .couldNotOpen
  | .ok array => Loadable flags array ∧ initSize flags array ≤ usedSize flags array ∧
      (flags.dataShift = true → array.Nodup)

section Contract

variable {xs : List K} {n : ℕ}

theorem contract_iff_nodup :
    ((xs.take n).insertionSort (· ≤ ·)).Pairwise (· < ·) ∧ (xs.drop n).Nodup ∧
      (∀ key ∈ xs.drop n, key ∉ (xs.take n).insertionSort (· ≤ ·)) ↔ xs.Nodup := by
  have hsort : ((xs.take n).insertionSort (· ≤ ·)).Pairwise (· < ·) ↔ (xs.take n).Nodup := by
    rw [← (List.perm_insertionSort (· ≤ ·) (xs.take n)).nodup_iff]
    constructor
    · exact fun h => h.imp fun hlt => hlt.ne
    · intro h
      have hle := List.pairwise_insertionSort (· ≤ ·) (xs.take n)
      exact (hle.and h).imp fun hab => lt_of_le_of_ne hab.1 hab.2
  rw [hsort]
  simp only [List.mem_insertionSort]
  conv_rhs => rw [← List.take_append_drop n xs, List.nodup_append]
  constructor
  · rintro ⟨h1, h2, h3⟩
    exact ⟨h1, h2, fun a ha b hb hab => h3 b hb (hab ▸ ha)⟩
  · rintro ⟨h1, h2, h3⟩
    exact ⟨h1, h2, fun b hb ha => h3 b ha b hb rfl⟩

end Contract

section Contract

variable {flags : Flags fl} {o : Oracle K} {array : List K}

theorem loadedOf_contract_iff (hle : initSize flags array ≤ usedSize flags array) :
    BulkLoadContract (.ok (loadedOf flags o array)) ↔
      ((arrange flags o array).1.take (usedSize flags array)).Nodup := by
  have htake : ((arrange flags o array).1.take (usedSize flags array)).take
      (initSize flags array).toNat =
        (arrange flags o array).1.take (initSize flags array).toNat := by
    rw [List.take_take, min_eq_left (by omega)]
  rw [← contract_iff_nodup (n := (initSize flags array).toNat), htake]
  simp only [BulkLoadContract, loadedOf, List.pairwise_map]

theorem initSize_le_of_contract (hne : array ≠ []) (hload : Loadable flags array)
    (h : ∀ o : Oracle K, BulkLoadContract (.ok (loadedOf flags o array))) :
    initSize flags array ≤ usedSize flags array := by
  by_contra hlt
  have hshift : flags.dataShift = false := by
    by_contra hon
    have := hload.le_length
    simp only [usedSize, Bool.eq_true_of_not_eq_false hon, if_true] at hlt
    omega
  obtain ⟨key, hkey⟩ := List.exists_mem_of_ne_nil _ (sortUnique_ne_nil hne)
  have hused : usedSize flags array = (sortUnique array).length := by simp [usedSize, hshift]
  obtain ⟨hpairs, -, -⟩ := h (.idle key)
  have hnodup : ((arrange flags (.idle key) array).1.take
      (initSize flags array).toNat).Nodup := by
    rw [← (List.perm_insertionSort (· ≤ ·) _).nodup_iff]
    exact (List.pairwise_map.mp hpairs).imp fun hab => hab.ne
  have hprefix : (sortUnique array ++ [key]).Sublist
      ((arrange flags (.idle key) array).1.take
        (initSize flags array).toNat) := by
    simp only [arrange, hshift, Bool.false_eq_true, if_false, Oracle.idle, Oracle.still,
      List.take_append]
    have hlong := hload.le_length
    rw [List.take_of_length_le (by omega), List.take_replicate]
    refine (List.Sublist.refl _).append (List.singleton_sublist.mpr ?_)
    rw [List.mem_replicate]
    exact ⟨by omega, rfl⟩
  have := hnodup.sublist hprefix
  rw [List.nodup_append] at this
  exact this.2.2 key hkey key (by simp) rfl

end Contract

/-- `load_keys` keeps the bulk-load contract, whatever the shuffle and the unspecified
elements, exactly on the files that fit the flags. -/
theorem loadKeys_contract_iff [Inhabited K] (flags : Flags fl) (file : KeyFile K) :
    (∀ o, BulkLoadContract (loadKeys flags o file)) ↔ FileFits flags file := by
  unfold FileFits
  cases hread : readKeyFile flags.tableSize file with
  | error f =>
    have heq : ∀ o, loadKeys flags o file = .error f := by
      intro o
      simp [loadKeys, hread, bind, Except.bind]
    simp only [heq]
    exact ⟨fun h => h (.idle default), fun h _ => h⟩
  | ok array =>
    constructor
    · intro h
      have hload : Loadable flags array := by
        by_contra hno
        obtain ⟨f, hf, hopen, -⟩ := loadKeys_of_not_loadable
          (o := .idle default) hread hno
        have hfault := h (.idle default)
        rw [hf] at hfault
        exact hopen hfault
      simp only [loadKeys_of_loadable hread hload] at h
      have hle := initSize_le_of_contract (readKeyFile_ne_nil hread) hload h
      refine ⟨hload, hle, fun hshift => ?_⟩
      have hnodup := (loadedOf_contract_iff hle).mp (h (.idle default))
      simpa [arrange, usedSize, hshift] using hnodup
    · rintro ⟨hload, hle, hshift⟩ o
      rw [loadKeys_of_loadable hread hload, loadedOf_contract_iff hle]
      cases hmode : flags.dataShift with
      | true => simpa [arrange, usedSize, hmode] using hshift hmode
      | false =>
        rw [take_arrange flags o array hmode]
        exact (o.shuffle (sortUnique array)).2.nodup_iff.mpr (sortUnique_nodup array)

def readShifted : Flags binary64 where
  readRatio := 1
  dataShift := true
  insert_or_delete := by decide +kernel
  sum_mem := by decide +kernel

theorem loadKeys_contract_fails : ¬ ∀ o : Oracle ℕ,
    BulkLoadContract (loadKeys readShifted o (.text [5, 5, 1, 2, 3, 4, 6, 7, 8, 9])) := by
  intro h
  exact absurd (h (.idle 0)) (by decide +kernel)

def readThirteenTwelfths : Flags binary64 where
  readRatio := 1
  initTableRatio := 4878899596318037 / 4503599627370496
  insert_or_delete := by decide +kernel
  sum_mem := by decide +kernel

-- the product is not thirteen before it is rounded
example : truncate (readThirteenTwelfths.initTableRatio * 12) = 12 ∧
    truncate (readThirteenTwelfths.initProduct 12) = 13 := by
  decide +kernel

end LearnedIndexFramework.Benchmark
