import LearnedIndexFramework.Pgm.Search
import Mathlib.Tactic.Linarith
import Mathlib.Tactic.Ring

/-! The levels of the container: what they say about a key, how large they are, and what an
insertion does to them. -/

namespace LearnedIndexFramework.Pgm

open Lib

variable {K V : Type}

section View

variable [DecidableEq V] [Top V]

def live (item : Option (Item K V)) : Option V :=
  item.bind fun item => if item.deleted then none else some item.second

theorem live_of_not_deleted {item : Item K V} (h : item.deleted = false) :
    live (some item) = some item.second := by
  simp [live, h]

theorem live_cancel {skip : Bool} {newer older rest : Option (Item K V)}
    (hskip : skip = true → rest = none) :
    live ((cancel skip newer older).or rest) = live (newer.or (older.or rest)) := by
  unfold cancel
  split
  · next h =>
    simp only [Bool.and_eq_true] at h
    obtain ⟨⟨hs, hdeleted⟩, -⟩ := h
    cases newer with
    | none => cases hdeleted
    | some item =>
      rw [Option.any_some] at hdeleted
      rw [hskip hs, Option.or_none, Option.some_or]
      simp [live, hdeleted]
  · rw [Option.or_assoc]

variable [LinearOrder K] {xs ys : List (Item K V)} {layers : List (List (Item K V))} {k : K}

def view (levels : List (List (Item K V))) (k : K) : Option V :=
  live (hitFirst Item.first k levels)

theorem view_merge {skip : Bool} (hx : Ascending xs) (hy : Ascending ys)
    (hskip : skip = true → ∀ level ∈ layers, level = []) :
    view (merge skip xs ys :: layers) k = view (xs :: ys :: layers) k := by
  rw [view, view, hitFirst_cons, hitFirst_cons, hitFirst_cons, hit_merge hx hy]
  exact live_cancel fun hs => hitFirst_eq_none_of_nil (hskip hs)

theorem view_replicate_nil (n : ℕ) :
    view (List.replicate n [] ++ layers) k = view layers k := by
  rw [view, view, hitFirst_replicate_nil]

theorem view_append_nil : view (layers ++ [[]]) k = view layers k := by
  rw [view, view, hitFirst_append, hitFirst_cons, hit_nil, hitFirst_nil, Option.or_none,
    Option.or_none]

theorem view_cons_of_hit {item : Item K V}
    (h : hit Item.first k ys = if k = item.first then some item else hit Item.first k xs) :
    view (ys :: layers) k =
      if k = item.first then live (some item) else view (xs :: layers) k := by
  rw [view, view, hitFirst_cons, hitFirst_cons, h]
  split
  · rw [Option.some_or]
  · rfl

end View

namespace DynamicPgm

section Access

variable {t : DynamicPgm K V} {j : ℕ} {items : List (Item K V)}

theorem level_eq_ok : t.level (t.minLevel + j) = .ok items ↔ t.levels[j]? = some items := by
  rw [level, Nat.add_sub_cancel_left]
  cases t.levels[j]? <;> simp [orUndefined]

theorem level_min_eq_ok : t.level t.minLevel = .ok items ↔ t.levels[0]? = some items :=
  level_eq_ok (j := 0)

theorem setLevel_eq (hj : j < t.levels.length) (items : List (Item K V)) :
    t.setLevel (t.minLevel + j) items = .ok { t with levels := t.levels.set j items } := by
  rw [setLevel, Nat.add_sub_cancel_left, if_pos hj]

theorem setLevel_min_eq (h : 0 < t.levels.length) (items : List (Item K V)) :
    t.setLevel t.minLevel items = .ok { t with levels := t.levels.set 0 items } :=
  setLevel_eq h items

theorem buildPgm_eq {i : ℕ} (hi : t.hasPgm i = true → i < t.minIndexLevel + t.pgms.length)
    (keys : Option (List K)) :
    t.buildPgm i keys = .ok { t with
      pgms := if t.hasPgm i then t.pgms.set (i - t.minIndexLevel) keys else t.pgms } := by
  rw [buildPgm]
  split
  · next hhas =>
    have hle : t.minIndexLevel ≤ i := by simpa [hasPgm] using hhas
    rw [setPgm, if_pos (by have := hi hhas; omega)]
  · rfl

end Access

section Sizes

variable {t : DynamicPgm K V}

theorem maxSize_eq (t : DynamicPgm K V) (i : ℕ) : t.maxSize i = (2 ^ ceilLog2 t.base) ^ i := by
  rw [maxSize, Nat.shiftLeft_eq, Nat.one_mul, ← pow_mul, Nat.mul_comm]

theorem sum_maxSize_lt (h : 0 < ceilLog2 t.base) (n : ℕ) :
    ((List.range n).map t.maxSize).sum < t.maxSize n := by
  have hbase : 2 ≤ 2 ^ ceilLog2 t.base := by
    calc 2 = 2 ^ 1 := rfl
    _ ≤ 2 ^ ceilLog2 t.base := Nat.pow_le_pow_right two_pos h
  induction n with
  | zero => simp [maxSize_eq]
  | succ n ih =>
    rw [List.range_succ, List.map_append, List.sum_append, List.map_singleton,
      List.sum_singleton, maxSize_eq t (n + 1), pow_succ]
    rw [maxSize_eq] at ih ⊢
    have hmul := Nat.mul_le_mul_left ((2 ^ ceilLog2 t.base) ^ n) hbase
    omega

def countBelow (t : DynamicPgm K V) (j : ℕ) : ℕ := ((t.levels.drop 1).take (j - 1)).flatten.length

theorem countBelow_succ {j : ℕ} {items : List (Item K V)} (hj : 0 < j)
    (hitems : t.levels[j]? = some items) :
    t.countBelow (j + 1) = t.countBelow j + items.length := by
  obtain ⟨j, rfl⟩ : ∃ i, j = i + 1 := ⟨j - 1, by omega⟩
  have hget : (t.levels.drop 1)[j]? = some items := by
    rw [List.getElem?_drop, Nat.add_comm]
    exact hitems
  have htake : (t.levels.drop 1).take (j + 1) = (t.levels.drop 1).take j ++ [items] := by
    rw [List.take_add_one, hget]
    rfl
  rw [countBelow, countBelow, Nat.add_sub_cancel, Nat.add_sub_cancel, htake,
    List.flatten_append, List.length_append, List.flatten_singleton]

end Sizes

section Target

variable {t : DynamicPgm K V}

theorem findTarget_spec {n j slots : ℕ} (hlen : j + n ≤ t.levels.length) (hj : 0 < j)
    (hslots : slots = t.bufferMaxSize + 1 + t.countBelow j) :
    ∃ j', j ≤ j' ∧ j' ≤ j + n ∧
      t.findTarget n (t.minLevel + j) slots =
        .ok (t.minLevel + j', t.bufferMaxSize + 1 + t.countBelow j') ∧
      (j' = j + n ∨ ∀ items, t.levels[j']? = some items →
        t.bufferMaxSize + 1 + t.countBelow j' ≤ t.maxSize (t.minLevel + j') - items.length) := by
  induction n generalizing j slots with
  | zero => exact ⟨j, le_rfl, le_rfl, by rw [findTarget, hslots], .inl rfl⟩
  | succ n ih =>
    have hget := List.getElem?_eq_getElem (show j < t.levels.length by omega)
    rw [findTarget, level_eq_ok.mpr hget]
    simp only [bind, Except.bind, pure, Except.pure]
    split
    · next hle =>
      refine ⟨j, le_rfl, by omega, by rw [hslots], .inr fun items hitems => ?_⟩
      obtain rfl := Option.some.inj (hget.symm.trans hitems)
      rw [← hslots]
      exact hle
    · next hgt =>
      obtain ⟨j', hle, hle', hfind, hfit⟩ := @ih (j + 1)
        (slots + t.levels[j].length) (by omega) (by omega)
        (by rw [countBelow_succ hj hget]; omega)
      refine ⟨j', by omega, by omega, ?_, hfit.imp_left (by omega)⟩
      rw [← hfind, ← Nat.add_assoc]

end Target

variable [LinearOrder K]

/-- The levels ascend, none is larger than its place allows, those that are not in use are empty
and each static index belongs to the items of its level. -/
structure Valid (t : DynamicPgm K V) : Prop where
  base : 0 < ceilLog2 t.base
  buffer : t.bufferMaxSize = ((List.range (t.minLevel + 1)).map t.maxSize).sum
  minIndex : t.minLevel < t.minIndexLevel
  used : t.minLevel ≤ t.usedLevels
  two : 1 < t.levels.length
  room : t.usedLevels < t.minLevel + t.levels.length
  pgmRoom : t.usedLevels ≤ t.minIndexLevel + t.pgms.length
  ascending : ∀ level ∈ t.levels, Ascending level
  unused : ∀ level ∈ t.levels.drop (t.usedLevels - t.minLevel), level = []
  bufferSize : ∀ items, t.levels[0]? = some items → items.length ≤ t.bufferMaxSize
  size : ∀ j items, t.levels[j]? = some items → 0 < j → items.length ≤ t.maxSize (t.minLevel + j)
  synced : ∀ j items, t.levels[j]? = some items → t.minIndexLevel ≤ t.minLevel + j →
    items ≠ [] → t.pgms[t.minLevel + j - t.minIndexLevel]? = some (some (items.map Item.first))

theorem Valid.bufferMaxSize_pos {t : DynamicPgm K V} (h : t.Valid) : 0 < t.bufferMaxSize := by
  rw [h.buffer, List.range_succ_eq_map, List.map_cons, List.sum_cons, maxSize_eq, pow_zero]
  omega

theorem Valid.countBelow_lt {t : DynamicPgm K V} (h : t.Valid) {j : ℕ} (hj : 0 < j)
    (hlen : j ≤ t.levels.length) :
    t.bufferMaxSize + t.countBelow j < t.maxSize (t.minLevel + j) := by
  have hle : t.bufferMaxSize + t.countBelow j ≤
      ((List.range (t.minLevel + j)).map t.maxSize).sum := by
    induction j with
    | zero => omega
    | succ j ih =>
      rcases Nat.eq_zero_or_pos j with rfl | hpos
      · rw [h.buffer]
        simp [countBelow]
      · have hget := List.getElem?_eq_getElem (show j < t.levels.length by omega)
        have hsize := h.size j _ hget hpos
        rw [countBelow_succ hpos hget, ← Nat.add_assoc, ← Nat.add_assoc, List.range_succ,
          List.map_append, List.sum_append, List.map_singleton, List.sum_singleton]
        have := ih hpos (by omega)
        omega
  exact hle.trans_lt (sum_maxSize_lt h.base _)

theorem view_take [DecidableEq V] [Top V] {t : DynamicPgm K V} (h : t.Valid) (k : K) :
    view t.levels k = live (hitFirst Item.first k (t.levels.take (t.usedLevels - t.minLevel))) := by
  rw [view]
  conv_lhs => rw [← List.take_append_drop (t.usedLevels - t.minLevel) t.levels]
  rw [hitFirst_append, hitFirst_eq_none_of_nil h.unused, Option.or_none]

section Merge

variable [DecidableEq V] [Top V] {t : DynamicPgm K V} {tmp : List (Item K V)} {size n j : ℕ}

def emptied (t : DynamicPgm K V) (j : ℕ) : DynamicPgm K V := { t with
  levels := t.levels.set j []
  pgms := if t.hasPgm (t.minLevel + j) then
    t.pgms.set (t.minLevel + j - t.minIndexLevel) none else t.pgms }

theorem mergeLevels_succ {items : List (Item K V)} (hget : t.levels[j]? = some items)
    (hpgm : t.hasPgm (t.minLevel + j) = true → t.minLevel + j < t.minIndexLevel + t.pgms.length)
    (hsize : tmp.length + items.length ≤ size) :
    mergeLevels size (n + 1) (t.minLevel + j) tmp t =
      mergeLevels size n (t.minLevel + (j + 1))
        (merge (t.minLevel + j = t.usedLevels - 1 : Bool) tmp items) (t.emptied j) := by
  have hlength : ∀ skip, (merge skip tmp items).length ≤ tmp.length + items.length := fun skip =>
    length_merge_le
  have hbuild := buildPgm_eq (t := { t with levels := t.levels.set j [] }) hpgm none
  simp only [mergeLevels, level_eq_ok.mpr hget, bind, Except.bind]
  rw [if_neg (not_lt.mpr ((hlength _).trans hsize)),
    setLevel_eq (List.getElem?_eq_some_iff.mp hget).1]
  simp only
  rw [hbuild]
  rfl

omit [DecidableEq V] [Top V] [LinearOrder K] in
theorem length_pgms_emptied : (t.emptied j).pgms.length = t.pgms.length := by
  rw [emptied]
  split <;> simp

omit [DecidableEq V] [Top V] [LinearOrder K] in
theorem drop_emptied {m : ℕ} (hm : j < m) : (t.emptied j).levels.drop m = t.levels.drop m :=
  List.drop_set_of_lt hm

omit [DecidableEq V] [Top V] [LinearOrder K] in
theorem take_emptied (hj : j < t.levels.length) :
    (t.emptied j).levels.take (j + 1) = t.levels.take j ++ [[]] := by
  rw [emptied, List.set_eq_take_append_cons_drop, if_pos hj, List.take_append,
    List.length_take, min_eq_left hj.le, Nat.add_sub_cancel_left,
    List.take_of_length_le (by rw [List.length_take]; omega)]
  rfl

omit [DecidableEq V] [Top V] [LinearOrder K] in
theorem mem_drop_emptied {m : ℕ} {level : List (Item K V)}
    (h : level ∈ (t.emptied j).levels.drop m) : level ∈ t.levels.drop m ∨ level = [] := by
  rw [emptied, List.drop_set] at h
  split at h
  · exact .inl h
  · exact List.mem_or_eq_of_mem_set h

omit [DecidableEq V] [Top V] [LinearOrder K] in
theorem getElem?_pgms_emptied {i : ℕ} (hlt : t.minLevel + j < i) :
    (t.emptied j).pgms[i - t.minIndexLevel]? = t.pgms[i - t.minIndexLevel]? := by
  rw [emptied]
  simp only
  split
  · next hhas =>
    have hle : t.minIndexLevel ≤ t.minLevel + j := by simpa [hasPgm] using hhas
    exact List.getElem?_set_ne (by omega)
  · rfl

theorem view_merge_level {items : List (Item K V)} (htmp : Ascending tmp) (hitems : Ascending items)
    (hunused : ∀ level ∈ t.levels.drop (t.usedLevels - t.minLevel), level = []) (k : K) :
    view (merge (t.minLevel + j = t.usedLevels - 1 : Bool) tmp items :: t.levels.drop (j + 1)) k =
      view (tmp :: items :: t.levels.drop (j + 1)) k := by
  refine view_merge htmp hitems fun hskip level hlevel => ?_
  rw [decide_eq_true_eq] at hskip
  refine hunused level ?_
  rw [show j + 1 = t.usedLevels - t.minLevel + (j + 1 - (t.usedLevels - t.minLevel)) by omega,
    ← List.drop_drop] at hlevel
  exact List.mem_of_mem_drop hlevel

theorem mergeLevels_spec (hlen : j + n ≤ t.levels.length)
    (hpgms : ∀ i, t.minIndexLevel ≤ i → i < t.minLevel + j + n →
      i < t.minIndexLevel + t.pgms.length)
    (htmp : Ascending tmp) (hasc : ∀ level ∈ t.levels, Ascending level)
    (hunused : ∀ level ∈ t.levels.drop (t.usedLevels - t.minLevel), level = [])
    (hsize : tmp.length + ((t.levels.drop j).take n).flatten.length ≤ size) :
    ∃ tmp' pgms', mergeLevels size n (t.minLevel + j) tmp t = .ok (tmp', { t with
        levels := t.levels.take j ++ (List.replicate n [] ++ t.levels.drop (j + n))
        pgms := pgms' }) ∧
      Ascending tmp' ∧
      tmp'.length ≤ tmp.length + ((t.levels.drop j).take n).flatten.length ∧
      (∀ k, view (tmp' :: t.levels.drop (j + n)) k = view (tmp :: t.levels.drop j) k) ∧
      pgms'.length = t.pgms.length ∧
      ∀ i, t.minIndexLevel ≤ i → t.minLevel + j + n ≤ i →
        pgms'[i - t.minIndexLevel]? = t.pgms[i - t.minIndexLevel]? := by
  induction n generalizing j tmp t with
  | zero =>
    refine ⟨tmp, t.pgms, ?_, htmp, by simp, fun k => rfl, rfl, fun i _ _ => rfl⟩
    rw [mergeLevels, List.replicate_zero, List.nil_append, Nat.add_zero, List.take_append_drop]
  | succ n ih =>
    have hj : j < t.levels.length := by omega
    have hget := List.getElem?_eq_getElem hj
    generalize t.levels[j] = items at hget
    have hdrop : t.levels.drop j = items :: t.levels.drop (j + 1) := by
      obtain ⟨hlt, rfl⟩ := List.getElem?_eq_some_iff.mp hget
      exact List.drop_eq_getElem_cons hlt
    have hitems : Ascending items := hasc _ (List.mem_of_getElem? hget)
    rw [hdrop, List.take_succ_cons, List.flatten_cons, List.length_append] at hsize ⊢
    have hhas : t.hasPgm (t.minLevel + j) = true →
        t.minLevel + j < t.minIndexLevel + t.pgms.length := by
      intro hhas
      have hle : t.minIndexLevel ≤ t.minLevel + j := by simpa [hasPgm] using hhas
      exact hpgms _ hle (by omega)
    set merged := merge (t.minLevel + j = t.usedLevels - 1 : Bool) tmp items
    have hmerge : merged.length ≤ tmp.length + items.length := length_merge_le
    obtain ⟨tmp', pgms', hrun, htmp', hlength, hview, hpgmsLength, hframe⟩ :=
      @ih (t.emptied j) merged (j + 1)
        (by rw [emptied, List.length_set]; omega)
        (fun i hi hlt => by
          rw [length_pgms_emptied]
          exact hpgms i hi (by rw [emptied] at hlt; simp only at hlt; omega))
        (ascending_merge htmp hitems)
        (fun level hlevel => by
          rcases List.mem_or_eq_of_mem_set hlevel with hlevel | rfl
          · exact hasc level hlevel
          · exact List.Pairwise.nil)
        (fun level hlevel => (mem_drop_emptied hlevel).elim (hunused level) id)
        (by rw [drop_emptied (by omega)]; omega)
    rw [drop_emptied (by omega)] at hlength
    rw [drop_emptied (by omega), drop_emptied (by omega)] at hview
    refine ⟨tmp', pgms', ?_, htmp', by omega, fun k => ?_, hpgmsLength.trans length_pgms_emptied,
      fun i hi hle => ?_⟩
    · rw [mergeLevels_succ hget hhas (by omega)]
      refine hrun.trans ?_
      rw [take_emptied hj, drop_emptied (by omega), List.append_assoc, List.replicate_succ,
        List.singleton_append, List.cons_append, Nat.add_right_comm j 1 n, Nat.add_assoc j n 1]
      rfl
    · rw [← Nat.add_assoc, Nat.add_right_comm, hview k]
      exact view_merge_level htmp hitems hunused k
    · refine (hframe i hi (by rw [emptied]; simp only; omega)).trans ?_
      exact getElem?_pgms_emptied (by omega)

end Merge

end DynamicPgm

end LearnedIndexFramework.Pgm
