import LearnedIndexFramework.Benchmark.Generate

/-! When loading and generation stay within their arrays, and that the operations are then well
targeted: present keys are read and absent ones inserted. -/

namespace LearnedIndexFramework.Benchmark

open Lib

variable {K : Type} [LinearOrder K] {fl : ℚ → ℚ}

def deleteSize (flags : Flags fl) (array : List K) : ℤ :=
  truncate (flags.deleteProduct (usedSize flags array))

structure Generable (flags : Flags fl) (array : List K) : Prop extends Loadable flags array where
  operations_nonneg : 0 ≤ flags.operationsNum
  samples : flags.operationsNum = 0 ∨ 1 ≤ initSize flags array
  delete_nonneg : 0 ≤ deleteSize flags array
  delete_lt : deleteSize flags array < 2 ^ 64

def Stops (flags : Flags fl) (array : List K) : Prop :=
  Oversized flags array ∨ Loadable flags array ∧ flags.operationsNum < 0

theorem Generable.not_stops {flags : Flags fl} {array : List K} (h : Generable flags array) :
    ¬ Stops flags array := by
  rintro (hbig | ⟨-, hneg⟩)
  · have := hbig.le_initSize
    have := h.lt_int
    omega
  · exact absurd h.operations_nonneg (by omega)

def startCursors (flags : Flags fl) (array : List K) : Cursors K where
  insertCounter := (initSize flags array).toNat
  deleteCounter := (deleteSize flags array).toNat

section Prepare

variable {flags : Flags fl} {o : Oracle K} {file : KeyFile K} {array : List K}

theorem length_initKeys (h : Loadable flags array) :
    (loadedOf flags o array).initKeys.length = (initSize flags array).toNat := by
  have hlen := length_arrange flags o array
  have hle := h.le_length
  simp only [loadedOf, List.length_insertionSort, List.length_take]
  omega

theorem mem_initKeys {key : K} : key ∈ (loadedOf flags o array).initKeys ↔
    key ∈ (arrange flags o array).1.take (initSize flags array).toNat := by
  simp only [loadedOf, List.mem_insertionSort]

theorem shiftRest_ok (h : Loadable flags array) :
    ∃ keys, shiftRest flags o (loadedOf flags o array) = .ok keys ∧
      usedSize flags array ≤ keys.length ∧
      (flags.dataShift = false → keys = (arrange flags o array).1) := by
  have hlen := length_arrange flags o array
  have hused := usedSize_le flags array
  cases hmode : flags.dataShift with
  | false => exact ⟨_, by simp [shiftRest, hmode, loadedOf], by omega, fun _ => rfl⟩
  | true =>
    have hall : usedSize flags array = array.length := by simp [usedSize, hmode]
    have hle := h.le_length
    have hnot : ¬ (loadedOf flags o array).tableSize < (loadedOf flags o array).initTableSize := by
      simp only [loadedOf]
      omega
    refine ⟨_, by simp only [shiftRest, hmode, if_true, if_neg hnot]; rfl, ?_, by simp⟩
    simp only [List.length_append, (o.randomShuffle _).2.length_eq, List.length_insertionSort]
    simp only [loadedOf, List.length_take, List.length_drop]
    omega

theorem samplePtr_ok (hload : Loadable flags array)
    (hsamples : flags.operationsNum = 0 ∨ 1 ≤ initSize flags array) :
    ∃ samplePtr, sampleKeys flags.sampleDistribution (loadedOf flags o array).initKeys
        (initSize flags array).toNat flags.operationsNum.toNat o.draw = .ok samplePtr ∧
      samplePtr.length = flags.operationsNum.toNat ∧
      ∀ key ∈ samplePtr, key ∈ (loadedOf flags o array).initKeys := by
  rcases hsamples with h0 | hpos
  · exact ⟨[], by simp [h0, sampleKeys_zero], by simp [h0], by simp⟩
  · exact sampleKeys_ok _ (by omega) (length_initKeys hload).ge _ _

theorem prepareWorkload_of_generable (hread : readKeyFile flags.tableSize file = .ok array)
    (h : Generable flags array) :
    ∃ keys samplePtr, usedSize flags array ≤ keys.length ∧
      (flags.dataShift = false → keys = (arrange flags o array).1) ∧
      samplePtr.length = flags.operationsNum.toNat ∧
      (∀ key ∈ samplePtr, key ∈ (loadedOf flags o array).initKeys) ∧
      ∀ c m, generateLoop flags keys (usedSize flags array) samplePtr o.prob
          flags.operationsNum.toNat flags.operationsNum.toNat (startCursors flags array) =
          .ok (c, m) →
        prepareWorkload flags o file =
          .ok (loadedOf flags o array, { operations := c.operations, operationsNum := m }) := by
  obtain ⟨keys, hkeys, hlen, heq⟩ := shiftRest_ok (o := o) h.toLoadable
  obtain ⟨samplePtr, hsample, hcount, hmem⟩ := samplePtr_ok (o := o) h.toLoadable h.samples
  refine ⟨keys, samplePtr, hlen, heq, hcount, hmem, fun c m hloop => ?_⟩
  have hdelete : toSizeT (flags.deleteProduct (usedSize flags array)) =
      .ok (deleteSize flags array).toNat := toSizeT_eq h.delete_nonneg h.delete_lt
  have hnonneg : ¬ flags.operationsNum < 0 := not_lt.mpr h.operations_nonneg
  rw [startCursors] at hloop
  have hgen : generateOperations flags o (loadedOf flags o array) =
      .ok { operations := c.operations, operationsNum := m } := by
    simp only [generateOperations, if_neg hnonneg, loadedOf_tableSize, loadedOf_initTableSize,
      bind, Except.bind, pure, Except.pure, hsample, hdelete, hkeys, hloop]
  rw [prepareWorkload, loadKeys_of_loadable hread h.toLoadable]
  simp only [bind, Except.bind, hgen]
  rfl

theorem prepareWorkload_of_not_generable (hread : readKeyFile flags.tableSize file = .ok array)
    (h : ¬ Generable flags array) : ∃ f, prepareWorkload flags o file = .error f ∧
      f ≠ .couldNotOpen ∧ (f.ends = true ↔ Stops flags array) := by
  by_cases hload : Loadable flags array
  · have hbig : ¬ Oversized flags array := fun hbig => by
      have := hbig.le_initSize
      have := hload.lt_int
      omega
    have hgen : ∃ f, generateOperations flags o (loadedOf flags o array) = .error f ∧
        f ≠ .couldNotOpen ∧ (f.ends = true ↔ Stops flags array) := by
      simp only [generateOperations, loadedOf_tableSize, loadedOf_initTableSize, bind, Except.bind,
        pure, Except.pure]
      by_cases hneg : flags.operationsNum < 0
      · exact ⟨.length, by rw [if_pos hneg]; rfl, by simp, iff_of_true rfl (.inr ⟨hload, hneg⟩)⟩
      have hstops : ¬ Stops flags array := fun hstops =>
        hstops.elim hbig fun hends => hneg hends.2
      simp only [if_neg hneg]
      by_cases hsamples : flags.operationsNum = 0 ∨ 1 ≤ initSize flags array
      · obtain ⟨samplePtr, hsample, -, -⟩ := samplePtr_ok (o := o) hload hsamples
        have hdelete : toSizeT (flags.deleteProduct (usedSize flags array)) =
            .error .conversion := if_neg fun hconv =>
          h ⟨hload, not_lt.mp hneg, hsamples, hconv.1, hconv.2⟩
        exact ⟨.conversion, by simp only [hsample, hdelete], by simp,
          iff_of_false (by simp [Fault.ends]) hstops⟩
      · have hzero : (initSize flags array).toNat = 0 := by omega
        have hempty := sampleKeys_empty (loadedOf flags o array).initKeys
          flags.sampleDistribution (show 0 < flags.operationsNum.toNat by omega) o.draw
        exact ⟨.emptyRange, by simp only [hzero, hempty], by simp,
          iff_of_false (by simp [Fault.ends]) hstops⟩
    obtain ⟨f, hf, hne, hends⟩ := hgen
    refine ⟨f, ?_, hne, hends⟩
    rw [prepareWorkload, loadKeys_of_loadable hread hload]
    simp only [bind, Except.bind, hf]
  · obtain ⟨f, hf, hne, hends⟩ := loadKeys_of_not_loadable (o := o) hread hload
    refine ⟨f, ?_, hne, hends.trans ⟨.inl, fun hstops => ?_⟩⟩
    · rw [prepareWorkload, hf]
      rfl
    · exact hstops.resolve_right fun hops => hload hops.1

end Prepare

def replayStep (present : List K) : Operation × K → Option (List K)
  | (.INSERT, key) => if key ∈ present then none else some (key :: present)
  | (.DELETE, key) => some (present.erase key)
  | (_, key) => if key ∈ present then some present else none

theorem replayStep_of_mem {present : List K} {op : Operation} {key : K} (hinsert : op ≠ .INSERT)
    (hdelete : op ≠ .DELETE) (hmem : key ∈ present) : replayStep present (op, key) = some present := by
  cases op with
  | INSERT => exact absurd rfl hinsert
  | DELETE => exact absurd rfl hdelete
  | READ => exact if_pos hmem
  | SCAN => exact if_pos hmem
  | UPDATE => exact if_pos hmem

def replay (present : List K) (operations : List (Operation × K)) : Option (List K) :=
  operations.foldlM replayStep present

theorem replay_concat {present present' : List K} {operations : List (Operation × K)}
    {op : Operation × K} (h : replay present operations = some present') :
    replay present (operations ++ [op]) = replayStep present' op := by
  simp only [replay] at h ⊢
  simp [List.foldlM_append, h]

/-- Loading and generation return, and unless a `DELETE` was generated there are
`operations_num` operations, none of which misses its target. -/
def WellTargeted : Except Fault (Loaded K × Workload K) → Prop
  | .error f => f = .couldNotOpen
  | .ok (loaded, workload) => (∀ op ∈ workload.operations, op.1 ≠ .DELETE) →
      workload.operations.length = workload.operationsNum ∧
        (replay loaded.initKeys workload.operations).isSome

instance : DecidablePred (WellTargeted (K := K))
  | .error f => inferInstanceAs (Decidable (f = .couldNotOpen))
  | .ok (_, _) => inferInstanceAs (Decidable (_ → _ ∧ _))

structure Replayed (initKeys keys : List K) (i : ℕ) (c : Cursors K) : Prop where
  length : c.operations.length = i
  replay : (∀ op ∈ c.operations, op.1 ≠ .DELETE) →
    ∃ present, replay initKeys c.operations = some present ∧
      (∀ key ∈ initKeys, key ∈ present) ∧ ∀ key ∈ present, key ∈ keys.take c.insertCounter

section Replay

variable {initKeys keys samplePtr : List K} {tableSize i : ℕ} {op : Operation}
  {c c' : Cursors K}

omit [LinearOrder K] in
theorem not_mem_take_of_nodup {j : ℕ} {key : K} (hnodup : (keys.take tableSize).Nodup)
    (hlt : j < tableSize) (hkey : keys[j]? = some key) : key ∉ keys.take j := by
  have hsub : (keys.take (j + 1)).Sublist (keys.take tableSize) :=
    (List.take_prefix_take_left hlt).sublist
  rw [List.take_add_one, hkey] at hsub
  have hsplit := List.nodup_append.mp (hnodup.sublist hsub)
  exact fun hmem => hsplit.2.2 key hmem key (by simp) rfl

theorem Replayed.pushed (hnodup : (keys.take tableSize).Nodup)
    (hsample : ∀ key ∈ samplePtr, key ∈ initKeys) (h : Replayed initKeys keys i c)
    (hpushed : Pushed keys tableSize samplePtr op c c') : Replayed initKeys keys (i + 1) c' := by
  cases hpushed with
  | @sample _ _ key hinsert hdelete hkey =>
    refine ⟨by simp [h.length], fun hno => ?_⟩
    obtain ⟨present, hreplay, hinit, htake⟩ := h.replay fun p hp => hno p (by simp [hp])
    have hpresent : key ∈ present := hinit key (hsample key (List.mem_of_getElem? hkey))
    refine ⟨present, ?_, hinit, htake⟩
    rw [replay_concat hreplay]
    exact replayStep_of_mem hinsert hdelete hpresent
  | @insert _ key hlt hkey =>
    refine ⟨by simp [h.length], fun hno => ?_⟩
    obtain ⟨present, hreplay, hinit, htake⟩ := h.replay fun p hp => hno p (by simp [hp])
    have habsent : key ∉ present := fun hmem =>
      not_mem_take_of_nodup hnodup hlt hkey (htake key hmem)
    refine ⟨key :: present, ?_, fun k hk => by simp [hinit k hk], ?_⟩
    · rw [replay_concat hreplay]
      simp [replayStep, habsent]
    · intro k hk
      rw [List.take_add_one, hkey]
      rcases List.mem_cons.mp hk with rfl | hk
      · simp
      · simp [htake k hk]
  | @delete _ key =>
    exact ⟨by simp [h.length], fun hno => absurd rfl (hno (.DELETE, key) (by simp))⟩

end Replay

def FileGenerable (flags : Flags fl) (file : KeyFile K) : Prop :=
  match readKeyFile flags.tableSize file with
  | .error f => f = .couldNotOpen
  | .ok array => Generable flags array

theorem nodup_take_of_noShift {flags : Flags fl} {o : Oracle K} {array keys : List K}
    (hshift : flags.dataShift = false)
    (hkeys : flags.dataShift = false → keys = (arrange flags o array).1) :
    (keys.take (usedSize flags array)).Nodup := by
  rw [hkeys hshift, take_arrange flags o array hshift]
  exact (o.shuffle (sortUnique array)).2.nodup_iff.mpr (sortUnique_nodup array)

section Unread

variable {flags : Flags fl} {o : Oracle K} {file : KeyFile K} {f : Fault}

theorem prepareWorkload_of_unread (hread : readKeyFile flags.tableSize file = .error f) :
    prepareWorkload flags o file = .error f := by
  simp [prepareWorkload, loadKeys, hread, bind, Except.bind]

end Unread

/-- Without `data_shift` the generated workloads are well targeted, for every stream of draws,
exactly when nothing goes wrong on the way to them. -/
theorem prepareWorkload_wellTargeted_iff [Inhabited K] (flags : Flags fl) (file : KeyFile K)
    (hshift : flags.dataShift = false) :
    (∀ o, WellTargeted (prepareWorkload flags o file)) ↔ FileGenerable flags file := by
  unfold FileGenerable
  cases hread : readKeyFile flags.tableSize file with
  | error f =>
    simp only [prepareWorkload_of_unread hread]
    exact ⟨fun h => h (.idle default), fun h _ => h⟩
  | ok array =>
    constructor
    · intro h
      by_contra hno
      obtain ⟨f, hf, hopen, -⟩ := prepareWorkload_of_not_generable
        (o := .idle default) hread hno
      have hfault := h (.idle default)
      rw [hf] at hfault
      exact hopen hfault
    · intro h o
      obtain ⟨keys, samplePtr, hlen, hkeys, hcount, hsample, hprepare⟩ :=
        prepareWorkload_of_generable (o := o) hread h
      have hnodup := nodup_take_of_noShift hshift hkeys
      have hstart : Replayed (loadedOf flags o array).initKeys keys 0
          (startCursors flags array) := by
        refine ⟨rfl, fun _ => ⟨_, rfl, fun _ hk => hk, fun key hk => ?_⟩⟩
        rw [hkeys hshift]
        exact mem_initKeys.mp hk
      obtain ⟨c, m, hloop, hinv, -, -⟩ := generateLoop_induct hcount hlen _ rfl hstart
        fun _ _ _ _ hc hpushed => hc.pushed hnodup hsample hpushed
      rw [hprepare c m hloop]
      intro hno
      obtain ⟨present, hreplay, -, -⟩ := hinv.replay hno
      exact ⟨hinv.length, by simp [hreplay]⟩

def readInsert : Flags binary64 where
  readRatio := 1 / 2
  insertRatio := 1 / 2
  operationsNum := 20
  initTableRatio := 6004799503160661 / 72057594037927936
  insert_or_delete := by decide +kernel
  sum_mem := by decide +kernel

theorem prepareWorkload_wellTargeted_twelve_keys : readInsert.dataShift = false ∧
    ∀ o : Oracle ℕ, WellTargeted (prepareWorkload readInsert o
      (.text [10, 20, 30, 30, 40, 50, 60, 70, 80, 90, 100, 110, 120])) := by
  refine ⟨rfl, (prepareWorkload_wellTargeted_iff _ _ rfl).mpr ?_⟩
  exact ⟨⟨by decide +kernel, by decide +kernel, by decide +kernel, by decide +kernel⟩,
    by decide +kernel, by decide +kernel, by decide +kernel, by decide +kernel⟩

def readTwenty : Flags binary64 := { readShifted with dataShift := false, operationsNum := 20 }

theorem prepareWorkload_three_keys :
    ¬ ∀ o : Oracle ℕ, WellTargeted (prepareWorkload readTwenty o (.text [10, 20, 30])) := by
  intro h
  exact absurd (h (.idle 0)) (by decide +kernel)

end LearnedIndexFramework.Benchmark
