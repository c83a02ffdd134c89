import LearnedIndexFramework.Pgm.Build

/-! The number of levels is logarithmic in the number of insertions. -/

namespace LearnedIndexFramework.Pgm

open Lib

variable {K V : Type}

namespace DynamicPgm

section Access

variable {t t' : DynamicPgm K V} {i i' : ℕ} {old items : List (Item K V)}

theorem level_eq_ok_iff : t.level i = .ok items ↔ t.levels[i - t.minLevel]? = some items := by
  rw [level]
  cases t.levels[i - t.minLevel]? <;> simp [orUndefined]

theorem setLevel_eq_ok (h : t.setLevel i items = .ok t') :
    t' = { t with levels := t.levels.set (i - t.minLevel) items } := by
  rw [setLevel] at h
  split at h
  · exact (Except.ok.inj h).symm
  · cases h

theorem buildPgm_eq_ok {keys : Option (List K)} (h : t.buildPgm i keys = .ok t') :
    ∃ pgms, t' = { t with pgms } := by
  rw [buildPgm] at h
  split at h
  · rw [setPgm] at h
    split at h
    · exact ⟨_, (Except.ok.inj h).symm⟩
    · cases h
  · exact ⟨t.pgms, (Except.ok.inj h).symm⟩

theorem total_set (hget : t.level i = .ok old) (items : List (Item K V)) :
    (t.levels.set (i - t.minLevel) items).flatten.length + old.length =
      t.total + items.length :=
  length_flatten_set items (level_eq_ok_iff.mp hget)

end Access

variable [LinearOrder K] [DecidableEq V] [Top V] {t t' : DynamicPgm K V} {newItem : Item K V}
  {tmp tmp' : List (Item K V)} {i : ℕ}

theorem mergeLevels_total {size n : ℕ} (hi : t.minLevel ≤ i)
    (hmerge : mergeLevels size n i tmp t = .ok (tmp', t')) :
    ∃ levels pgms, t' = { t with levels, pgms } ∧
      t'.total + tmp'.length ≤ t.total + tmp.length ∧
      ∀ j, t.minLevel ≤ j → j < i → t'.level j = t.level j := by
  induction n generalizing i tmp t with
  | zero =>
    cases hmerge
    exact ⟨_, _, rfl, le_rfl, fun _ _ _ => rfl⟩
  | succ n ih =>
    obtain ⟨level, hlevel, hmerge⟩ := bind_eq_ok.mp hmerge
    dsimp only at hmerge
    split at hmerge
    · cases hmerge
    · obtain ⟨t₁, hset, hmerge⟩ := bind_eq_ok.mp hmerge
      obtain ⟨t₂, hbuild, hmerge⟩ := bind_eq_ok.mp hmerge
      obtain rfl := setLevel_eq_ok hset
      obtain ⟨pgms₁, rfl⟩ := buildPgm_eq_ok hbuild
      obtain ⟨levels, pgms, rfl, htotal, hframe⟩ := ih (by exact hi.trans (Nat.le_succ i)) hmerge
      refine ⟨levels, pgms, rfl, htotal.trans ?_, fun j hj hji => ?_⟩
      · have hflat := total_set hlevel []
        have hlength : (merge (decide (i = t.usedLevels - 1)) tmp level).length ≤
            tmp.length + level.length := length_merge_le
        rw [List.length_nil] at hflat
        simp only [total] at hflat ⊢
        omega
      · have hne : i - t.minLevel ≠ j - t.minLevel := by omega
        exact (hframe j hj (by omega)).trans (congrArg orUndefined (List.getElem?_set_ne hne))

theorem pairwiseMerge_total {target sizeHint insertionPoint : ℕ}
    (hmerge : t.pairwiseMerge newItem target sizeHint insertionPoint = .ok t') :
    ∃ levels pgms, t' = { t with levels, pgms } ∧ t'.total ≤ t.total + 1 := by
  obtain ⟨buffer, hbuffer, hmerge⟩ := bind_eq_ok.mp hmerge
  obtain ⟨old, hold, hmerge⟩ := bind_eq_ok.mp hmerge
  dsimp only at hmerge
  split at hmerge
  · cases hmerge
  · obtain ⟨⟨tmp, t₁⟩, hlevels, hmerge⟩ := bind_eq_ok.mp hmerge
    obtain ⟨t₂, hclear, hmerge⟩ := bind_eq_ok.mp hmerge
    obtain ⟨t₃, hset, hbuild⟩ := bind_eq_ok.mp hmerge
    obtain ⟨levels, pgms, rfl, htotal, hframe⟩ := mergeLevels_total (Nat.le_succ _) hlevels
    have hbuffer₁ := (hframe t.minLevel le_rfl (Nat.lt_succ_self _)).trans hbuffer
    have hfull := total_set hbuffer₁ []
    obtain rfl := setLevel_eq_ok hclear
    have hroom : ∀ {t t' : DynamicPgm K V} {items : List (Item K V)},
        t.setLevel target items = .ok t' → t'.total ≤ t.total + items.length := by
      intro t t' items hset
      rw [setLevel] at hset
      split at hset
      · next hlt =>
        have hget : t.level target = .ok _ :=
          level_eq_ok_iff.mpr (List.getElem?_eq_getElem hlt)
        have hflat := total_set hget items
        cases hset
        simp only [total] at hflat ⊢
        omega
      · cases hset
    have htarget := hroom hset
    obtain rfl := setLevel_eq_ok hset
    obtain ⟨pgms', rfl⟩ := buildPgm_eq_ok hbuild
    have hlength : (buffer.take insertionPoint ++ newItem :: buffer.drop insertionPoint).length =
        buffer.length + 1 := by
      rw [List.length_append, List.length_cons, List.length_take, List.length_drop]
      omega
    refine ⟨_, pgms', rfl, ?_⟩
    simp only [total, List.length_nil] at *
    omega

omit [LinearOrder K] [DecidableEq V] [Top V] in
theorem findTarget_last {n j slots slots' : ℕ} (hn : 0 < n) (hj : 0 < j)
    (hslots : slots = t.bufferMaxSize + 1 + t.countBelow j)
    (hfind : t.findTarget n (t.minLevel + j) slots = .ok (t.minLevel + (j + n), slots')) :
    t.maxSize (t.minLevel + (j + n - 1)) ≤ t.bufferMaxSize + t.countBelow (j + n) := by
  induction n generalizing j slots with
  | zero => omega
  | succ n ih =>
    rw [findTarget] at hfind
    obtain ⟨level, hlevel, hfind⟩ := bind_eq_ok.mp hfind
    have hget := level_eq_ok.mp hlevel
    dsimp only at hfind
    split at hfind
    case isTrue =>
      have := congrArg Prod.fst (Except.ok.inj hfind)
      dsimp only at this
      omega
    case isFalse hgt =>
      have hnext : slots + level.length = t.bufferMaxSize + 1 + t.countBelow (j + 1) := by
        rw [countBelow_succ hj hget]
        omega
      rcases Nat.eq_zero_or_pos n with rfl | hpos
      · rw [Nat.zero_add, Nat.add_sub_cancel]
        omega
      · have := ih hpos (j := j + 1) (Nat.succ_pos j) hnext
          (by rw [show j + 1 + n = j + (n + 1) by omega]; exact hfind)
        rwa [show j + 1 + n = j + (n + 1) by omega] at this

omit [LinearOrder K] [DecidableEq V] [Top V] in
theorem length_add_countBelow_le {buffer : List (Item K V)} (hbuffer : t.levels[0]? = some buffer)
    (j : ℕ) : buffer.length + t.countBelow j ≤ t.total := by
  have hsplit : t.levels = buffer :: t.levels.drop 1 := by
    obtain ⟨hlt, rfl⟩ := List.getElem?_eq_some_iff.mp hbuffer
    exact (List.drop_eq_getElem_cons hlt)
  have hle : ((t.levels.drop 1).take (j - 1)).flatten.length ≤
      (t.levels.drop 1).flatten.length := by
    conv_rhs => rw [← List.take_append_drop (j - 1) (t.levels.drop 1), List.flatten_append,
      List.length_append]
    exact Nat.le_add_right _ _
  rw [countBelow, total]
  conv_rhs => rw [hsplit, List.flatten_cons, List.length_append]
  omega

structure Grows (t t' : DynamicPgm K V) : Prop where
  base_eq : t'.base = t.base
  minLevel_eq : t'.minLevel = t.minLevel
  minIndexLevel_eq : t'.minIndexLevel = t.minIndexLevel
  total_le : t'.total ≤ t.total + 1
  used : t'.usedLevels ≤ max (t.minLevel + 1) t.usedLevels ∨
    t'.usedLevels = t.usedLevels + 1 ∧ t.maxSize (t.usedLevels - 1) ≤ t.total

theorem insertBelow_grows (h : t.Valid) {buffer : List (Item K V)} {insertionPoint : ℕ}
    (hbuffer : t.levels[0]? = some buffer) (hfull : buffer.length = t.bufferMaxSize)
    (hused : t.minLevel < t.usedLevels)
    (hinsert : t.insertBelow newItem insertionPoint = .ok t') : Grows t t' := by
  have hroom := h.room
  obtain ⟨⟨i, slots⟩, hfind, hmerge⟩ := bind_eq_ok.mp hinsert
  obtain ⟨j, hj, hj', hfind', -⟩ := @findTarget_spec _ _ t
    (t.usedLevels - (t.minLevel + 1)) 1 (t.bufferMaxSize + 1) (by omega) one_pos rfl
  have hi : i = t.minLevel + j := congrArg Prod.fst (Except.ok.inj (hfind.symm.trans hfind'))
  dsimp only at hmerge
  split at hmerge
  case isFalse hne =>
    obtain ⟨levels, pgms, rfl, htotal⟩ := pairwiseMerge_total hmerge
    exact ⟨rfl, rfl, rfl, htotal, .inl (le_max_right _ _)⟩
  case isTrue hlast =>
    obtain ⟨levels, pgms, rfl, htotal⟩ := pairwiseMerge_total hmerge
    refine ⟨rfl, rfl, rfl, htotal.trans_eq ?_, .inr ⟨rfl, ?_⟩⟩
    · rw [total, total, addLevel, List.flatten_append, List.length_append]
      rfl
    · have hcount := length_add_countBelow_le hbuffer j
      rw [hfull] at hcount
      refine le_trans ?_ hcount
      rcases Nat.lt_or_ge (t.minLevel + 1) t.usedLevels with hlt | hge
      · obtain rfl : j = 1 + (t.usedLevels - (t.minLevel + 1)) := by omega
        have hlast' := findTarget_last (by omega) one_pos rfl hfind'
        rwa [show t.minLevel + (1 + (t.usedLevels - (t.minLevel + 1)) - 1) = t.usedLevels - 1 by
          omega] at hlast'
      · rw [h.buffer, List.range_succ, List.map_append, List.sum_append, List.map_singleton,
          List.sum_singleton, show t.usedLevels - 1 = t.minLevel by omega]
        omega

theorem insert_grows (h : t.Valid) (hinsert : t.insert newItem = .ok t') : Grows t t' := by
  obtain ⟨buffer, hlevel, hinsert⟩ := bind_eq_ok.mp hinsert
  obtain ⟨pos, hpos, hinsert⟩ := bind_eq_ok.mp hinsert
  have hbuffer := level_min_eq_ok.mp hlevel
  have hempty : t.usedLevels ≤ t.minLevel → buffer = [] := fun hle =>
    eq_nil_of_unused h (j := 0) hle hbuffer
  rw [insertAt] at hinsert
  split at hinsert
  case isTrue hany =>
    obtain rfl := setLevel_eq_ok hinsert
    have hflat := total_set hlevel (buffer.set pos newItem)
    rw [List.length_set] at hflat
    refine ⟨rfl, rfl, rfl, ?_, .inl (le_max_right _ _)⟩
    simp only [total] at hflat ⊢
    omega
  case isFalse hany =>
    split at hinsert
    case isTrue hlt =>
      obtain ⟨t₁, hset, hret⟩ := bind_eq_ok.mp hinsert
      obtain rfl := setLevel_eq_ok hset
      cases hret
      have hflat := total_set hlevel (buffer.take pos ++ newItem :: buffer.drop pos)
      rw [List.length_append, List.length_cons, List.length_take, List.length_drop] at hflat
      refine ⟨rfl, rfl, rfl, ?_, .inl ?_⟩
      · simp only [total] at hflat ⊢
        omega
      · dsimp only
        split <;> omega
    case isFalse hge =>
      have hfull := h.bufferSize buffer hbuffer
      have hpos' := h.bufferMaxSize_pos
      refine insertBelow_grows h hbuffer (by omega) ?_ hinsert
      by_contra hle
      rw [hempty (by omega)] at hge
      exact hge hpos'

structure Sized (t : DynamicPgm K V) (n : ℕ) : Prop where
  base : t.base = 8
  minLevel : t.minLevel = 3
  minIndexLevel : t.minIndexLevel = 8
  total_le : t.total ≤ n
  used : t.usedLevels ≤ 4 ∨ t.maxSize (t.usedLevels - 2) ≤ n

variable {n : ℕ}

omit [LinearOrder K] [DecidableEq V] [Top V] in
theorem Sized.maxSize_eq (h : t.Sized n) (i : ℕ) : t.maxSize i = 8 ^ i := by
  rw [DynamicPgm.maxSize_eq, h.base, ceilLog2_eight]
  norm_num

omit [LinearOrder K] [DecidableEq V] [Top V] in
theorem Sized.mono (h : t.Sized n) : t.Sized (n + 1) :=
  ⟨h.base, h.minLevel, h.minIndexLevel, h.total_le.trans (Nat.le_succ n),
    h.used.imp_right (·.trans (Nat.le_succ n))⟩

omit [LinearOrder K] [DecidableEq V] [Top V] in
theorem Sized.grow (h : t.Sized n) (hgrows : Grows t t') : t'.Sized (n + 1) := by
  have hbase : t'.base = 8 := hgrows.base_eq.trans h.base
  have hmax : ∀ i, t'.maxSize i = t.maxSize i := fun i => by
    rw [maxSize, maxSize, hgrows.base_eq]
  refine ⟨hbase, hgrows.minLevel_eq.trans h.minLevel,
    hgrows.minIndexLevel_eq.trans h.minIndexLevel,
    hgrows.total_le.trans (Nat.succ_le_succ h.total_le), ?_⟩
  have hmin := h.minLevel
  rw [hmax]
  rcases hgrows.used with hle | ⟨heq, hfull⟩
  · rcases Nat.lt_or_ge 4 t'.usedLevels with hlt | hge
    · have hused := h.used.resolve_left (by omega)
      refine .inr (le_trans ?_ (hused.trans (Nat.le_succ n)))
      rw [h.maxSize_eq, h.maxSize_eq]
      exact Nat.pow_le_pow_right (by omega) (by omega)
    · exact .inl hge
  · refine .inr ?_
    rw [heq, show t.usedLevels + 1 - 2 = t.usedLevels - 1 by omega]
    exact hfull.trans (h.total_le.trans (Nat.le_succ n))

omit [LinearOrder K] [DecidableEq V] [Top V] in
theorem Sized.maxSize_le (h : t.Sized n) {i : ℕ} (hi : i < t.usedLevels) :
    t.maxSize i ≤ max 512 (8 * n) := by
  rw [h.maxSize_eq]
  rcases h.used with hused | hused
  · refine le_max_of_le_left ?_
    calc 8 ^ i ≤ 8 ^ 3 := Nat.pow_le_pow_right (by omega) (by omega)
    _ = 512 := rfl
  · refine le_max_of_le_right ?_
    rw [h.maxSize_eq] at hused
    calc 8 ^ i ≤ 8 ^ (t.usedLevels - 2 + 1) := Nat.pow_le_pow_right (by omega) (by omega)
    _ = 8 * 8 ^ (t.usedLevels - 2) := pow_succ' _ _
    _ ≤ 8 * n := Nat.mul_le_mul_left 8 hused

omit [LinearOrder K] [DecidableEq V] [Top V] in
theorem Sized.le_of_indexed (h : t.Sized n) (hindexed : t.minIndexLevel < t.usedLevels) :
    2 ^ 21 ≤ n := by
  have hmin := h.minIndexLevel
  have hused := h.used.resolve_left (by omega)
  rw [h.maxSize_eq] at hused
  calc 2 ^ 21 = 8 ^ 7 := by norm_num
  _ ≤ 8 ^ (t.usedLevels - 2) := Nat.pow_le_pow_right (by omega) (by omega)
  _ ≤ n := hused

section Load

theorem pow_ceilLogBase_pred_le {n : ℕ} (hn : 1 < n) : 8 ^ (ceilLogBase 8 n - 1) ≤ n := by
  have hlog : 2 ^ (ceilLog2 n - 1) ≤ n := by
    rw [ceilLog2, if_neg (by omega), Nat.add_sub_cancel]
    exact (Nat.log2_self_le (by omega)).trans (Nat.sub_le n 1)
  refine le_trans ?_ hlog
  rw [ceilLogBase, ceilLog2_eight, show (8 : ℕ) = 2 ^ 3 by rfl, ← pow_mul]
  exact Nat.pow_le_pow_right two_pos (by omega)

omit [LinearOrder K] [DecidableEq V] [Top V] in
theorem total_loaded {level : ℕ} (hlevel : 3 ≤ level) (items : List (Item K V)) :
    (loaded level items).total = items.length := by
  have hnil : (List.replicate (max (level + 1) 32 - 3 + 1) ([] : List (Item K V))).flatten = [] :=
    List.flatten_eq_nil_iff.mpr fun xs hxs => List.eq_of_mem_replicate hxs
  have hget : (List.replicate (max (level + 1) 32 - 3 + 1) ([] : List (Item K V)))[level - 3]? =
      some [] := List.getElem?_replicate_of_lt (by omega)
  have hset := length_flatten_set items hget
  rw [hnil, List.length_nil, Nat.add_zero, Nat.zero_add] at hset
  exact hset

theorem ofRange_sized {keyValue : List (K × V)} (hrun : ofRange keyValue = .ok t) :
    t.Valid ∧ t.Sized keyValue.length := by
  have hload := loadable_of_ofRange hrun
  obtain ⟨t₁, hrun₁, hvalid, -⟩ := ofRange_spec hload
  obtain rfl := Except.ok.inj (hrun₁.symm.trans hrun)
  refine ⟨hvalid, ?_⟩
  cases keyValue with
  | nil =>
    cases hrun
    refine ⟨rfl, rfl, rfl, ?_, .inl (by decide : 3 ≤ 4)⟩
    rw [total, List.flatten_eq_nil_iff.mpr fun xs hxs => List.eq_of_mem_replicate hxs]
    exact le_rfl
  | cons pair rest =>
    obtain ⟨items, hrun', -, hlength, -, -⟩ := exists_loaded hload
    obtain rfl := Except.ok.inj (hrun'.symm.trans hrun)
    refine ⟨rfl, rfl, rfl, ?_, ?_⟩
    · rw [total_loaded (le_max_right _ _)]
      exact hlength
    · rcases Nat.lt_or_ge 3 (ceilLogBase 8 (rest.length + 1)) with hlt | hge
      · refine .inr ?_
        have hpos : 1 < rest.length + 1 := by
          by_contra hle
          rw [show rest.length + 1 = 1 by omega] at hlt
          exact absurd hlt (by decide)
        have hpow := pow_ceilLogBase_pred_le hpos
        rw [maxSize_loaded, pow_mul]
        change (2 ^ 3) ^ (max (ceilLogBase 8 (rest.length + 1)) 3 + 1 - 2) ≤ rest.length + 1
        rwa [max_eq_left hlt.le, show ceilLogBase 8 (rest.length + 1) + 1 - 2 =
          ceilLogBase 8 (rest.length + 1) - 1 by omega]
      · refine .inl ?_
        change max (ceilLogBase 8 (rest.length + 1)) 3 + 1 ≤ 4
        omega

end Load

end DynamicPgm

end LearnedIndexFramework.Pgm
