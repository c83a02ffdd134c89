import LearnedIndexFramework.Benchmark.Targets

/-! Which kinds of operations a flag setting can produce, and what its `DELETE`s aim at. -/

namespace LearnedIndexFramework.Benchmark

open Lib

variable {K : Type} {fl : ℚ → ℚ}

def DeleteReachable (flags : Flags fl) : Prop :=
  flags.readRatio < 1 ∧ flags.insertThreshold < 1 ∧ flags.updateThreshold < 1 ∧
    flags.scanThreshold < 1

theorem kindOf_eq_delete_iff {flags : Flags fl} {prob : ℚ} : kindOf flags prob = .DELETE ↔
    flags.readRatio ≤ prob ∧ flags.insertThreshold ≤ prob ∧ flags.updateThreshold ≤ prob ∧
      flags.scanThreshold ≤ prob := by
  simp only [kindOf, ← not_lt]
  split <;> simp_all
  split <;> simp_all
  split <;> simp_all

theorem deleteReachable_of_kindOf {flags : Flags fl} {prob : ℚ} (hlt : prob < 1)
    (h : kindOf flags prob = .DELETE) : DeleteReachable flags := by
  obtain ⟨h1, h2, h3, h4⟩ := kindOf_eq_delete_iff.mp h
  exact ⟨h1.trans_lt hlt, h2.trans_lt hlt, h3.trans_lt hlt, h4.trans_lt hlt⟩

theorem exists_delete_draw {flags : Flags fl} (h : DeleteReachable flags) :
    ∃ q : {q : ℚ // 0 ≤ q ∧ q < 1}, kindOf flags q.1 = .DELETE := by
  obtain ⟨h1, h2, h3, h4⟩ := h
  refine ⟨⟨max 0 (max flags.readRatio (max flags.insertThreshold
    (max flags.updateThreshold flags.scanThreshold))),
    le_max_left _ _, by simp [h1, h2, h3, h4]⟩, ?_⟩
  rw [kindOf_eq_delete_iff]
  simp

def deleteTargets (operations : List (Operation × K)) : List K :=
  operations.filterMap fun p => if p.1 = .DELETE then some p.2 else none

theorem mem_deleteTargets {operations : List (Operation × K)} {key : K} :
    key ∈ deleteTargets operations ↔ (Operation.DELETE, key) ∈ operations := by
  simp only [deleteTargets, List.mem_filterMap]
  constructor
  · rintro ⟨⟨op, k⟩, hmem, heq⟩
    split at heq <;> simp_all
  · exact fun h => ⟨_, h, by simp⟩

theorem drop_take_of_le {keys : List K} {start stop : ℕ} (h : stop ≤ start) :
    (keys.take stop).drop start = [] := by
  rw [List.drop_eq_nil_iff]
  exact (List.length_take_le _ _).trans h

structure Walked (flags : Flags fl) (prob : ℕ → {q : ℚ // 0 ≤ q ∧ q < 1}) (keys : List K)
    (tableSize start i : ℕ) (c : Cursors K) : Prop where
  start_le : start ≤ c.deleteCounter
  le_rounds : c.deleteCounter ≤ start + i
  le_table : c.deleteCounter ≤ max start tableSize
  targets : deleteTargets c.operations = (keys.take c.deleteCounter).drop start
  eq_start : ¬ DeleteReachable flags → c.deleteCounter = start
  eq_rounds : (∀ j, kindOf flags (prob j).1 = .DELETE) → c.deleteCounter = start + i

section Walk

variable {flags : Flags fl} {prob : ℕ → {q : ℚ // 0 ≤ q ∧ q < 1}} {keys samplePtr : List K}
  {tableSize start i : ℕ} {op : Operation} {c c' : Cursors K}

theorem deleteTargets_concat_of_ne {operations : List (Operation × K)} {key : K}
    (h : op ≠ .DELETE) : deleteTargets (operations ++ [(op, key)]) = deleteTargets operations := by
  simp [deleteTargets, h]

theorem Walked.pushed (h : Walked flags prob keys tableSize start i c)
    (hpushed : Pushed keys tableSize samplePtr (kindOf flags (prob i).1) c c') :
    Walked flags prob keys tableSize start (i + 1) c' := by
  obtain ⟨h1, h2, h3, h4, h5, h6⟩ := h
  generalize hop : kindOf flags (prob i).1 = op at hpushed
  cases hpushed with
  | sample hinsert hdelete =>
    exact ⟨h1, h2.trans (by omega), h3, by rw [deleteTargets_concat_of_ne hdelete, h4], h5,
      fun hall => absurd (hop.symm.trans (hall i)) hdelete⟩
  | insert =>
    exact ⟨h1, h2.trans (by omega), h3, by rw [deleteTargets_concat_of_ne (by simp), h4], h5,
      fun hall => absurd (hop.symm.trans (hall i)) (by simp)⟩
  | @delete _ key hlt hkey =>
    refine ⟨h1.trans (Nat.le_succ _), by simp only; omega, by simp only; omega, ?_,
      fun hno => absurd (deleteReachable_of_kindOf (prob i).2.2 hop) hno, fun hall => ?_⟩
    · have htake : keys.take (c.deleteCounter + 1) = keys.take c.deleteCounter ++ [key] := by
        rw [List.take_add_one, hkey]
        rfl
      have hlen : start ≤ (keys.take c.deleteCounter).length := by
        have := (List.getElem?_eq_some_iff.mp hkey).1
        simp only [List.length_take]
        omega
      simp only [htake, List.drop_append_of_le_length hlen, ← h4, deleteTargets]
      simp
    · have := h6 hall
      simp only
      omega

def Drawn (flags : Flags fl) (prob : ℕ → {q : ℚ // 0 ≤ q ∧ q < 1}) (i : ℕ) (c : Cursors K) : Prop :=
  ∀ op ∈ c.operations, ∃ j < i, kindOf flags (prob j).1 = op.1

theorem Pushed.operations_eq (h : Pushed keys tableSize samplePtr op c c') :
    ∃ key, c'.operations = c.operations ++ [(op, key)] := by
  cases h <;> exact ⟨_, rfl⟩

theorem Drawn.pushed (h : Drawn flags prob i c)
    (hpushed : Pushed keys tableSize samplePtr (kindOf flags (prob i).1) c c') :
    Drawn flags prob (i + 1) c' := by
  obtain ⟨key, heq⟩ := hpushed.operations_eq
  intro p hp
  rw [heq, List.mem_append] at hp
  rcases hp with hp | hp
  · obtain ⟨j, hj, hkind⟩ := h p hp
    exact ⟨j, Nat.lt_succ_of_lt hj, hkind⟩
  · obtain rfl := List.mem_singleton.mp hp
    exact ⟨i, Nat.lt_succ_self i, rfl⟩

end Walk

section Run

variable [LinearOrder K] {flags : Flags fl} {o : Oracle K} {file : KeyFile K} {array : List K}

theorem prepareWorkload_targets (hread : readKeyFile flags.tableSize file = .ok array)
    (h : Generable flags array) :
    ∃ keys workload stop, prepareWorkload flags o file = .ok (loadedOf flags o array, workload) ∧
      usedSize flags array ≤ keys.length ∧
      (flags.dataShift = false → keys = (arrange flags o array).1) ∧
      deleteTargets workload.operations = (keys.take stop).drop (deleteSize flags array).toNat ∧
      (stop ≤ (deleteSize flags array).toNat ∨ (DeleteReachable flags ∧
        stop ≤ usedSize flags array ∧ (stop : ℤ) ≤ deleteSize flags array + flags.operationsNum)) ∧
      ((∀ i, kindOf flags (o.prob i).1 = .DELETE) → usedSize flags array ≤ stop ∨
        (stop : ℤ) = deleteSize flags array + flags.operationsNum) := by
  obtain ⟨keys, samplePtr, hlen, hkeys, hcount, -, hprepare⟩ :=
    prepareWorkload_of_generable (o := o) hread h
  have h0 := h.operations_nonneg
  have hd := h.delete_nonneg
  have hstart : Walked flags o.prob keys (usedSize flags array) (deleteSize flags array).toNat 0
      (startCursors flags array) :=
    ⟨le_rfl, le_rfl, le_max_left _ _, by simp [deleteTargets, startCursors], fun _ => rfl,
      fun _ => rfl⟩
  obtain ⟨c, m, hloop, hwalk, hm, hend⟩ := generateLoop_induct hcount hlen _ rfl hstart
    fun _ _ _ _ hc hpushed => hc.pushed hpushed
  refine ⟨keys, _, c.deleteCounter, hprepare c m hloop, hlen, hkeys, hwalk.targets, ?_, ?_⟩
  · obtain ⟨h1, h2, h3, -, hnone, -⟩ := hwalk
    by_cases hreach : DeleteReachable flags
    · by_cases hle : c.deleteCounter ≤ (deleteSize flags array).toNat
      · exact .inl hle
      · exact .inr ⟨hreach, by omega, by omega⟩
    · exact .inl (hnone hreach).le
  · intro hdel
    have hcursor := hwalk.eq_rounds hdel
    rcases hm.lt_or_eq with hlt | rfl
    · rcases hend hlt with ⟨hop, -⟩ | ⟨-, hge⟩
      · rw [hdel m] at hop
        simp at hop
      · exact .inl hge
    · exact .inr (by omega)

theorem prepareWorkload_kinds {loaded : Loaded K} {workload : Workload K}
    (hread : readKeyFile flags.tableSize file = .ok array) (h : Generable flags array)
    (hrun : prepareWorkload flags o file = .ok (loaded, workload)) :
    ∀ op ∈ workload.operations, ∃ i, kindOf flags (o.prob i).1 = op.1 := by
  obtain ⟨keys, samplePtr, hlen, -, hcount, -, hprepare⟩ :=
    prepareWorkload_of_generable (o := o) hread h
  have hstart : Drawn flags o.prob 0 (startCursors flags array) := by simp [Drawn, startCursors]
  obtain ⟨c, m, hloop, hinv, -, -⟩ := generateLoop_induct hcount hlen _ rfl hstart
    fun _ _ _ _ hc hpushed => hc.pushed hpushed
  have hsame := Except.ok.inj (hrun.symm.trans (hprepare c m hloop))
  obtain ⟨-, rfl⟩ := Prod.mk.inj hsame
  intro op hop
  obtain ⟨j, -, hkind⟩ := hinv op hop
  exact ⟨j, hkind⟩

end Run

/-- The program ends without a workload, or every `DELETE` of the workload aims at a bulk-loaded
key that no earlier `DELETE` aims at. -/
def DeletesLoaded [DecidableEq K] : Except Fault (Loaded K × Workload K) → Prop
  | .error f => f.ends = true
  | .ok (loaded, workload) =>
      (∀ op ∈ workload.operations, op.1 = .DELETE → op.2 ∈ loaded.initKeys) ∧
      (deleteTargets workload.operations).Nodup

instance [DecidableEq K] : DecidablePred (DeletesLoaded (K := K))
  | .error f => inferInstanceAs (Decidable (f.ends = true))
  | .ok (_, _) => inferInstanceAs (Decidable (_ ∧ _))

/-- When some draw deletes and the delete cursor starts within the table, the keys it can walk
over are bulk loaded. -/
def DeletesWithin [LinearOrder K] (flags : Flags fl) (array : List K) : Prop :=
  DeleteReachable flags → 0 < flags.operationsNum →
    deleteSize flags array < usedSize flags array →
    min (usedSize flags array : ℤ) (deleteSize flags array + flags.operationsNum) ≤
      initSize flags array

section Order

variable [LinearOrder K]

section Loaded

variable {flags : Flags fl} {file : KeyFile K} {array : List K}

theorem deletesWithin_of_deletesLoaded [Inhabited K] (hshift : flags.dataShift = false)
    (hread : readKeyFile flags.tableSize file = .ok array) (hgen : Generable flags array)
    (h : ∀ o, DeletesLoaded (prepareWorkload flags o file)) : DeletesWithin flags array := by
  intro hreach hops hstart
  by_contra hlt
  obtain ⟨q, hq⟩ := exists_delete_draw hreach
  obtain ⟨keys, workload, stop, hrun, hlen, hkeys, htargets, -, hall⟩ :=
    prepareWorkload_targets (o := .still default fun _ => q) hread hgen
  have hnodup := nodup_take_of_noShift hshift hkeys
  have hstop := hall fun _ => hq
  have hd := hgen.delete_nonneg
  have hi := hgen.nonneg
  obtain ⟨j, hj⟩ : ∃ j : ℕ, (j : ℤ) + 1 =
      min (usedSize flags array : ℤ) (deleteSize flags array + flags.operationsNum) :=
    ⟨(min (usedSize flags array : ℤ) (deleteSize flags array + flags.operationsNum) - 1).toNat,
      by omega⟩
  have hused : j < usedSize flags array := by omega
  have hkey : keys[j]? = some keys[j] := List.getElem?_eq_getElem (by omega)
  have htarget : keys[j] ∈ deleteTargets workload.operations := by
    rw [htargets, List.mem_iff_getElem?]
    refine ⟨j - (deleteSize flags array).toNat, ?_⟩
    rw [List.getElem?_drop, List.getElem?_take]
    have hidx : (deleteSize flags array).toNat + (j - (deleteSize flags array).toNat) = j := by
      omega
    rw [hidx, if_pos (by omega), hkey]
  have hloaded := h (.still default fun _ => q)
  rw [hrun] at hloaded
  have hmem := mem_initKeys.mp (hloaded.1 _ (mem_deleteTargets.mp htarget) rfl)
  rw [← hkeys hshift] at hmem
  refine not_mem_take_of_nodup hnodup hused hkey (List.take_subset_take_left keys ?_ hmem)
  omega

theorem deletesLoaded_of_deletesWithin (hshift : flags.dataShift = false)
    (hread : readKeyFile flags.tableSize file = .ok array) (hgen : Generable flags array)
    (h : DeletesWithin flags array) (o : Oracle K) :
    DeletesLoaded (prepareWorkload flags o file) := by
  obtain ⟨keys, workload, stop, hrun, hlen, hkeys, htargets, hstop, -⟩ :=
    prepareWorkload_targets (o := o) hread hgen
  rw [hrun]
  have hnodup := nodup_take_of_noShift hshift hkeys
  have hmem : ∀ op ∈ workload.operations, op.1 = .DELETE →
      op.2 ∈ (keys.take stop).drop (deleteSize flags array).toNat := by
    intro op hop hkind
    rw [← htargets]
    exact mem_deleteTargets.mpr (hkind ▸ hop)
  by_cases hle : stop ≤ (deleteSize flags array).toNat
  · rw [drop_take_of_le hle] at htargets hmem
    exact ⟨fun op hop hkind => absurd (hmem op hop hkind) List.not_mem_nil,
      by rw [htargets]; exact List.nodup_nil⟩
  · obtain ⟨hreach, hused, hrounds⟩ := hstop.resolve_left hle
    have h0 := hgen.operations_nonneg
    have hd := hgen.delete_nonneg
    have hwithin := h hreach (by omega) (by omega)
    have hinit : stop ≤ (initSize flags array).toNat := by omega
    refine ⟨fun op hop hkind => ?_, ?_⟩
    · rw [mem_initKeys, ← hkeys hshift]
      exact List.take_subset_take_left keys hinit (List.mem_of_mem_drop (hmem op hop hkind))
    · rw [htargets]
      exact hnodup.sublist ((List.drop_sublist _ _).trans (List.take_sublist_take_left hused))

end Loaded

/-- The program ends before there is a workload, or it gets there without a fault and its keys
fit. -/
def FileAllows (flags : Flags fl) (fits : List K → Prop) (file : KeyFile K) : Prop :=
  match readKeyFile flags.tableSize file with
  | .error f => f.ends = true
  | .ok array => Stops flags array ∨ Generable flags array ∧ fits array

theorem forall_prepareWorkload_iff [Inhabited K] {flags : Flags fl} {file : KeyFile K}
    {good : Except Fault (Loaded K × Workload K) → Prop} {fits : List K → Prop}
    (hfault : ∀ f, good (.error f) ↔ f.ends = true)
    (hfits : ∀ array, readKeyFile flags.tableSize file = .ok array → Generable flags array →
      ((∀ o, good (prepareWorkload flags o file)) ↔ fits array)) :
    (∀ o, good (prepareWorkload flags o file)) ↔ FileAllows flags fits file := by
  unfold FileAllows
  cases hread : readKeyFile flags.tableSize file with
  | error f =>
    simp only [prepareWorkload_of_unread hread, hfault]
    exact ⟨fun h => h (.idle default), fun h _ => h⟩
  | ok array =>
    by_cases hgen : Generable flags array
    · rw [hfits array hread hgen]
      exact ⟨fun h => .inr ⟨hgen, h⟩, fun h => (h.resolve_left hgen.not_stops).2⟩
    · constructor
      · intro h
        obtain ⟨f, hf, -, hends⟩ :=
          prepareWorkload_of_not_generable (o := .idle default) hread hgen
        have hgood := h (.idle default)
        rw [hf, hfault] at hgood
        exact .inl (hends.mp hgood)
      · intro h o
        obtain ⟨f, hf, -, hends⟩ := prepareWorkload_of_not_generable (o := o) hread hgen
        rw [hf, hfault]
        exact hends.mpr (h.resolve_right fun hno => hgen hno.1)

/-- Without `data_shift`, `DELETE`s only ever aim at bulk-loaded keys exactly when the delete
cursor cannot leave the loaded part of the table. -/
theorem prepareWorkload_deletesLoaded_iff [Inhabited K] (flags : Flags fl) (file : KeyFile K)
    (hshift : flags.dataShift = false) :
    (∀ o, DeletesLoaded (prepareWorkload flags o file)) ↔
      FileAllows flags (DeletesWithin flags) file := by
  refine forall_prepareWorkload_iff (fun f => Iff.rfl) fun array hread hgen => ⟨?_, ?_⟩
  · exact deletesWithin_of_deletesLoaded hshift hread hgen
  · exact deletesLoaded_of_deletesWithin hshift hread hgen

def readDelete : Flags binary64 where
  readRatio := 1 / 2
  deleteRatio := 1 / 2
  operationsNum := 4
  initTableRatio := 15 / 16
  insert_or_delete := by decide +kernel
  sum_mem := by decide +kernel

theorem prepareWorkload_deletesLoaded_ten_keys : readDelete.dataShift = false ∧
    ∀ o : Oracle ℕ, DeletesLoaded (prepareWorkload readDelete o
      (.text [10, 20, 30, 40, 50, 60, 70, 80, 90, 100])) := by
  refine ⟨rfl, (prepareWorkload_deletesLoaded_iff _ _ rfl).mpr (.inr ⟨?_, fun _ _ _ => ?_⟩)⟩
  · exact ⟨⟨by decide +kernel, by decide +kernel, by decide +kernel, by decide +kernel⟩,
      by decide +kernel, by decide +kernel, by decide +kernel, by decide +kernel⟩
  · decide +kernel

def readDeleteHalf : Flags binary64 where
  readRatio := 1 / 2
  deleteRatio := 1 / 2
  operationsNum := 4
  insert_or_delete := by decide +kernel
  sum_mem := by decide +kernel

theorem prepareWorkload_deletes_unloaded : ¬ ∀ o : Oracle ℕ, DeletesLoaded
    (prepareWorkload readDeleteHalf o (.text [10, 20, 30, 40, 50, 60, 70, 80, 90, 100])) := by
  intro h
  exact absurd (h (.still 0 fun _ => ⟨3 / 4, by norm_num⟩)) (by decide +kernel)

end Order

def ratioOf (flags : Flags fl) : Operation → ℚ
  | .READ => flags.readRatio
  | .INSERT => flags.insertRatio
  | .UPDATE => flags.updateRatio
  | .SCAN => flags.scanRatio
  | .DELETE => flags.deleteRatio

/-- The program ends without a workload, or no operation of the workload has a kind whose ratio
is zero. -/
def OnlyAskedFor (flags : Flags fl) : Except Fault (Loaded K × Workload K) → Prop
  | .error f => f.ends = true
  | .ok (_, workload) => ∀ op ∈ workload.operations, ratioOf flags op.1 ≠ 0

instance (flags : Flags fl) : DecidablePred (OnlyAskedFor (K := K) flags)
  | .error f => inferInstanceAs (Decidable (f.ends = true))
  | .ok (_, _) => inferInstanceAs (Decidable (∀ _ ∈ _, _))

theorem eq_delete_of_ratioOf_eq_zero {flags : Flags id} {prob : ℚ} (h0 : 0 ≤ prob)
    (h : ratioOf flags (kindOf flags prob) = 0) : kindOf flags prob = .DELETE := by
  unfold kindOf at h ⊢
  split_ifs at h ⊢ with h1 h2 h3 h4
  case neg => rfl
  all_goals
    simp only [ratioOf, Flags.scanThreshold, Flags.updateThreshold, Flags.insertThreshold, id] at *
    linarith

def DeletesAskedFor [LinearOrder K] (flags : Flags fl) (array : List K) : Prop :=
  flags.deleteRatio = 0 → DeleteReachable flags →
    flags.operationsNum = 0 ∨ usedSize flags array ≤ deleteSize flags array

section Order

variable [LinearOrder K]

section Asked

variable {flags : Flags id} {file : KeyFile K} {array : List K}

theorem deletesAskedFor_of_onlyAskedFor [Inhabited K]
    (hread : readKeyFile flags.tableSize file = .ok array) (hgen : Generable flags array)
    (h : ∀ o, OnlyAskedFor flags (prepareWorkload flags o file)) :
    DeletesAskedFor flags array := by
  intro hzero hreach
  obtain ⟨q, hq⟩ := exists_delete_draw hreach
  obtain ⟨keys, workload, stop, hrun, hlen, -, htargets, -, hall⟩ :=
    prepareWorkload_targets (o := .still default fun _ => q) hread hgen
  have hstop := hall fun _ => hq
  have hasked := h (.still default fun _ => q)
  rw [hrun] at hasked
  by_contra hno
  have h0 := hgen.operations_nonneg
  have hd := hgen.delete_nonneg
  have hne : deleteTargets workload.operations ≠ [] := by
    rw [htargets]
    simp only [ne_eq, List.drop_eq_nil_iff, List.length_take]
    omega
  obtain ⟨key, hkey⟩ := List.exists_mem_of_ne_nil _ hne
  exact hasked _ (mem_deleteTargets.mp hkey) hzero

theorem onlyAskedFor_of_deletesAskedFor (hread : readKeyFile flags.tableSize file = .ok array)
    (hgen : Generable flags array) (h : DeletesAskedFor flags array) (o : Oracle K) :
    OnlyAskedFor flags (prepareWorkload flags o file) := by
  obtain ⟨keys, workload, stop, hrun, hlen, -, htargets, hstop, -⟩ :=
    prepareWorkload_targets (o := o) hread hgen
  rw [hrun]
  intro op hop hratio
  obtain ⟨i, hkind⟩ := prepareWorkload_kinds hread hgen hrun op hop
  rw [← hkind] at hratio
  have hdelete := eq_delete_of_ratioOf_eq_zero (o.prob i).2.1 hratio
  have hreach := deleteReachable_of_kindOf (o.prob i).2.2 hdelete
  rw [hdelete] at hratio
  have hmem : op.2 ∈ deleteTargets workload.operations :=
    mem_deleteTargets.mpr ((hkind.symm.trans hdelete) ▸ hop)
  have hbound := h hratio hreach
  have hd := hgen.delete_nonneg
  rw [htargets, drop_take_of_le (by omega)] at hmem
  exact absurd hmem List.not_mem_nil

end Asked

/-- A workload holds an operation of a kind with ratio zero, for some stream of draws, exactly
when `DELETE` has ratio zero and yet some draw deletes. -/
theorem prepareWorkload_onlyAskedFor_iff [Inhabited K] (flags : Flags id) (file : KeyFile K) :
    (∀ o, OnlyAskedFor flags (prepareWorkload flags o file)) ↔
      FileAllows flags (DeletesAskedFor flags) file := by
  refine forall_prepareWorkload_iff (fun f => Iff.rfl) fun array hread hgen => ⟨?_, ?_⟩
  · exact deletesAskedFor_of_onlyAskedFor hread hgen
  · exact onlyAskedFor_of_deletesAskedFor hread hgen

end Order

def readAlmost : Flags id where
  readRatio := 99995 / 100000
  operationsNum := 1
  insert_or_delete := by decide +kernel
  sum_mem := by decide +kernel

theorem prepareWorkload_unasked_delete : ¬ ∀ o : Oracle ℕ, OnlyAskedFor readAlmost
    (prepareWorkload readAlmost o (.text [10, 20, 30, 40, 50, 60, 70, 80, 90, 100])) := by
  intro h
  exact absurd (h (.still 0 fun _ => ⟨99996 / 100000, by norm_num⟩)) (by decide +kernel)

end LearnedIndexFramework.Benchmark
