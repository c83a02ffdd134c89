import LearnedIndexFramework.Fast.Layout
import Mathlib.Data.List.GetD

/-! `lower_bound` over the stored tree, and the answers of the interface. -/

namespace LearnedIndexFramework.Fast

open Lib

def goesRight (l : List Word) (key : Word) (idx : ℕ) : Bool := decide (paddedKey l idx < key)

theorem le_maxKey (key : Word) : key ≤ maxKey := by
  rw [Fin.le_def, maxKey, Word.val_ofNat (by decide)]
  exact Nat.le_pred_of_lt key.isLt

theorem paddedKey_mono {l : List Word} (hl : l.Pairwise (· < ·)) {j k : ℕ} (hjk : j ≤ k) :
    paddedKey l j ≤ paddedKey l k := by
  rcases Nat.lt_or_ge k l.length with hlt | hge
  case inl =>
    rw [paddedKey, paddedKey, List.getD_eq_getElem _ _ hlt, List.getD_eq_getElem _ _ (by omega)]
    rcases Nat.eq_or_lt_of_le hjk with rfl | hjk
    · exact le_rfl
    · exact (List.pairwise_iff_getElem.mp hl j k _ hlt hjk).le
  case inr =>
    rw [paddedKey, paddedKey, List.getD_eq_default _ _ hge]
    exact le_maxKey _

theorem goesRight_mono {l : List Word} (hl : l.Pairwise (· < ·)) (key : Word) (j k : ℕ)
    (hjk : j ≤ k) (hk : goesRight l key k) : goesRight l key j := by
  rw [goesRight, decide_eq_true_iff] at hk ⊢
  exact (paddedKey_mono hl hjk).trans_lt hk

section Search

variable {l v : List Word} {key : Word} {address i m levels : ℕ}

theorem descend_one : descend (goesRight l key) i m 1 =
    (decide (paddedKey l (i + 2 ^ (m - 1) - 1) < key)).toNat := by
  rw [descend, goesRight]
  cases decide (paddedKey l (i + 2 ^ (m - 1) - 1) < key) with
  | true => rfl
  | false => rfl

theorem searchScalar_eq (h : Holds v address (simdCells l i m levels)) (hlevels : levels ≤ m) :
    searchScalar v key address levels = some (descend (goesRight l key) i m levels) := by
  refine search_layers (fun _ => 1) one_pos (fun _ _ _ _ => rfl) some hlevels ?_ h
  intro level offset address i m hlevel _ hnode
  have hone : min 1 (levels - level) = 1 := by omega
  have hread : v[address + offset]? = some (paddedKey l (i + 2 ^ (m - 1) - 1)) := by
    simpa using hnode.read (j := 0) rfl
  simp [hread, hone, descend_one, Nat.shiftLeft_eq]

theorem simdCells_two : simdCells l i m 2 =
    [some (paddedKey l (i + 2 ^ (m - 1) - 1)), some (paddedKey l (i + 2 ^ (m - 2) - 1)),
      some (paddedKey l (i + 2 ^ (m - 1) + 2 ^ (m - 2) - 1))] := by
  simp [simdCells, layers, levelsFrom, nodeCells, List.range', List.range_succ, Nat.sub_sub]

theorem maskToIndex_moveMask (root left right other : Bool) (hleft : root → left)
    (hright : right → root) :
    maskToIndex (moveMask [root, left, right, other]) =
      some (if root then 2 + right.toNat else left.toNat) := by
  revert root left right other
  decide

theorem searchSimd_eq (hl : l.Pairwise (· < ·)) (h : Holds v address (simdCells l i m 2))
    (hroom : address + 3 < v.length) (hm : 2 ≤ m) :
    searchSimd v key address = some (descend (goesRight l key) i m 2) := by
  rw [simdCells_two] at h
  have hroot : v[address]? = _ := h.read (j := 0) rfl
  have hleft := h.read (j := 1) rfl
  have hright := h.read (j := 2) rfl
  have hother : v[address + 3]? = some v[address + 3] := List.getElem?_eq_getElem hroom
  have hpos : 0 < 2 ^ (m - 2) := Nat.two_pow_pos _
  have hpow : 2 ^ (m - 1) = 2 ^ (m - 2) + 2 ^ (m - 2) := by
    rw [← two_mul, ← pow_succ', show m - 2 + 1 = m - 1 by omega]
  have hmask := maskToIndex_moveMask (goesRight l key (i + 2 ^ (m - 1) - 1))
    (goesRight l key (i + 2 ^ (m - 2) - 1)) (goesRight l key (i + 2 ^ (m - 1) + 2 ^ (m - 2) - 1))
    (decide (v[address + 3] < key)) (goesRight_mono hl key _ _ (by omega))
    (goesRight_mono hl key _ _ (by omega))
  have htree : (List.range simdSize).mapM (fun lane => v[address + lane]?) =
      some [paddedKey l (i + 2 ^ (m - 1) - 1), paddedKey l (i + 2 ^ (m - 2) - 1),
        paddedKey l (i + 2 ^ (m - 1) + 2 ^ (m - 2) - 1), v[address + 3]] := by
    simp [simdSize, sizeofKey, List.range_succ, hroot, hleft, hright, hother]
  rw [searchSimd, htree]
  exact hmask.trans (by rw [descend, descend_one, descend_one]; rfl)

theorem searchCacheline_eq (hl : l.Pairwise (· < ·)) (h : Holds v address (cacheCells l i m levels))
    (hlevels : levels ≤ m) :
    searchCacheline v key address levels = some (descend (goesRight l key) i m levels) := by
  have hroom := h.room
  rw [length_cacheCells] at hroom
  have hpos : 0 < 2 ^ levels := Nat.two_pow_pos levels
  -- The last cell of a cache line is unused, so four lanes can be read from all of its blocks.
  have hused := h.left.take
  rw [length_simdLayers] at hused
  refine search_layers _ two_pos (fun _ i m _ => length_simdCells i m _) some hlevels ?_ hused
  intro level offset address i m hlevel hm hblock
  set depth := min 2 (levels - level) with hdepth
  have hchild : address + offset * 2 ^ depth - offset = address + offset * (2 ^ depth - 1) := by
    rw [Nat.mul_sub_one, Nat.add_sub_assoc]
    exact Nat.le_mul_of_pos_right _ (Nat.two_pow_pos depth)
  have hsearch : searchBlock v key (address + offset * (2 ^ depth - 1)) depth =
      some (descend (goesRight l key) i m depth) := by
    rw [searchBlock, simdDepth_eq]
    split
    case isTrue htwo =>
      have hend := hblock.room
      rw [htwo] at hblock hm hend ⊢
      rw [length_simdCells, List.length_take] at hend
      exact searchSimd_eq hl hblock.of_take (by omega) hm
    case isFalse hone => exact searchScalar_eq hblock.of_take hm
  simp only [simdDepth_eq, ← hdepth, Nat.shiftLeft_eq, hchild, hsearch, Nat.mul_comm (2 ^ level)]
  rfl

theorem searchPage_eq (key : Word) (hl : l.Pairwise (· < ·)) (h : Holds v address (pageCells l i m levels))
    (hlevels : levels ≤ m) :
    searchPage v key address levels = some (descend (goesRight l key) i m levels) := by
  refine search_layers _ three_pos (fun _ i m _ => length_cacheCells i m _) some hlevels ?_ h.left
  intro level offset address i m hlevel hm hblock
  simp only [cacheLineDepth_eq, Nat.shiftLeft_eq, searchCacheline_eq hl hblock hm, pow_add]
  rfl

theorem holds_pageCells {depth level : ℕ}
    (h : Holds v address (treePageCells l depth level i m levels)) :
    Holds v address (pageCells l i m levels) := by
  rw [treePageCells] at h
  split at h
  · exact h.left
  · exact h

theorem lowerBound_descend {depth : ℕ} (hl : l.Pairwise (· < ·))
    (h : Holds v 0 (treeCells l depth)) :
    FAST.lowerBound ⟨depth, l.length, v⟩ key =
      some (min (descend (goesRight l key) 0 depth depth) l.length) := by
  refine search_layers _ (by decide) (fun level i m _ => length_treePageCells depth level i m)
    (fun n => some (min n l.length)) le_rfl ?_ h
  intro level offset address i m hlevel hm hblock
  have hpage := searchPage_eq key hl (holds_pageCells hblock) hm
  rw [pageActualDepth] at hpage ⊢
  simp only [pageCacheDepth_eq, pageDepth_eq, min_comm (depth - level), Nat.shiftLeft_eq, pow_add,
    hpage]
  rfl

end Search

theorem lowerBound_spec {l : List Word} (hl : l.Pairwise (· < ·)) (hpos : 0 < l.length)
    (hlt : l.length < 2 ^ 30) : ∃ index, buildFAST l l.length = some index ∧
      ∀ key, ∃ lb ≤ l.length, index.lowerBound key = some lb ∧
        ∀ j (hj : j < l.length), l[j] < key ↔ j < lb := by
  obtain ⟨v, hbuild, hholds⟩ := buildFAST_eq l hpos hlt
  refine ⟨_, hbuild, ?_⟩
  intro key
  refine ⟨_, min_le_right _ _, lowerBound_descend hl hholds, ?_⟩
  intro j hj
  have hdepth : l.length < 2 ^ (Nat.log2 l.length + 1) := Nat.lt_log2_self
  have hright := right_iff_lt_descend (goesRight_mono hl key) 0 (Nat.log2 l.length + 1) j (by omega)
  rw [Nat.zero_add, goesRight, decide_eq_true_iff, paddedKey, List.getD_eq_getElem _ _ hj] at hright
  rw [hright]
  omega

/-! ### The interface -/

section Interface

variable {P : Type} {kvs : List (Word × P)}

theorem scanFrom_eq (wanted lb cnt : ℕ) (result : ℕ → Word × P) :
    scanFrom kvs wanted lb cnt result = (cnt + ((kvs.drop lb).take wanted).length,
      fun j => if cnt ≤ j then ((kvs.drop lb).take wanted)[j - cnt]?.getD (result j)
        else result j) := by
  induction wanted generalizing lb cnt result with
  | zero => simp [scanFrom]
  | succ wanted ih =>
    rw [scanFrom]
    split
    case isFalse hge => simp [List.drop_eq_nil_of_le (Nat.not_lt.mp hge)]
    case isTrue hlt =>
      rw [ih, List.drop_eq_getElem_cons hlt, List.take_succ_cons, List.length_cons]
      refine congrArg₂ Prod.mk (by omega) (funext fun j => ?_)
      rcases lt_trichotomy cnt j with hj | rfl | hj
      · have hsub : j - cnt = (j - (cnt + 1)) + 1 := by omega
        rw [if_pos (Nat.succ_le_of_lt hj), if_pos hj.le, hsub, List.getElem?_cons_succ,
          Function.update_of_ne hj.ne']
      · simp
      · rw [if_neg (by omega), if_neg (by omega), Function.update_of_ne hj.ne]

theorem filter_eq_drop {p : Word × P → Bool} {lb : ℕ}
    (h : ∀ j (hj : j < kvs.length), p kvs[j] ↔ lb ≤ j) : kvs.filter p = kvs.drop lb := by
  have htake : (kvs.take lb).filter p = [] := by
    rw [List.filter_eq_nil_iff]
    intro kv hkv
    obtain ⟨j, hj, rfl⟩ := List.mem_iff_getElem.mp hkv
    rw [List.length_take] at hj
    rw [List.getElem_take, h j (by omega)]
    omega
  have hdrop : (kvs.drop lb).filter p = kvs.drop lb := by
    rw [List.filter_eq_self]
    intro kv hkv
    obtain ⟨j, hj, rfl⟩ := List.mem_iff_getElem.mp hkv
    rw [List.length_drop] at hj
    rw [List.getElem_drop, h (lb + j) (by omega)]
    exact Nat.le_add_right lb j
  rw [← List.take_append_drop lb kvs, List.filter_append, htake, hdrop, List.nil_append,
    List.take_append_drop]

theorem bulkLoad_spec (hsorted : (kvs.map Prod.fst).Pairwise (· < ·)) (hpos : 0 < kvs.length)
    (hlt : kvs.length < 2 ^ 30) : ∃ index, bulkLoad kvs = some ⟨index, kvs⟩ ∧
      ∀ key, ∃ lb ≤ kvs.length, index.lowerBound key = some lb ∧
        ∀ j (hj : j < kvs.length), kvs[j].1 < key ↔ j < lb := by
  have hlength : (kvs.map Prod.fst).length = kvs.length := List.length_map ..
  obtain ⟨index, hbuild, hbound⟩ := lowerBound_spec hsorted (by omega) (by omega)
  rw [hlength] at hbuild
  refine ⟨index, ?_, ?_⟩
  · rw [bulkLoad, hbuild]
    rfl
  · simpa using hbound

/-- A scan returns the wanted number of pairs, or all there are, and writes the first of the pairs
from the bound on. -/
theorem scan_eq (hsorted : (kvs.map Prod.fst).Pairwise (· < ·)) (hpos : 0 < kvs.length)
    (hlt : kvs.length < 2 ^ 30) (low : Word) (keyNum : ℕ) (result : ℕ → Word × P) :
    (bulkLoad kvs >>= fun fast => fast.scan low keyNum result) =
      some (min keyNum (kvs.filter fun kv => low ≤ kv.1).length,
        fun j => ((kvs.filter fun kv => low ≤ kv.1).take keyNum)[j]?.getD (result j)) := by
  obtain ⟨index, hload, hbound⟩ := bulkLoad_spec hsorted hpos hlt
  obtain ⟨lb, -, hlb, hless⟩ := hbound low
  have hdrop : (kvs.filter fun kv => low ≤ kv.1) = kvs.drop lb := by
    refine filter_eq_drop fun j hj => ?_
    rw [decide_eq_true_iff, ← not_lt, hless j hj, not_lt]
  rw [hload, hdrop, ← List.length_take]
  change (index.lowerBound low >>= fun lb => some (scanFrom kvs keyNum lb 0 result)) = _
  rw [hlb]
  change some (scanFrom kvs keyNum lb 0 result) = _
  simp only [scanFrom_eq, Nat.zero_le, if_true, Nat.sub_zero, Nat.zero_add]

def evenPairs (n : ℕ) : List (Word × ℕ) := (List.range n).map fun i => (.ofNat (2 * i), i)

theorem pairwise_evenPairs {n : ℕ} (hn : n ≤ 2 ^ 60) :
    ((evenPairs n).map Prod.fst).Pairwise (· < ·) := by
  rw [evenPairs, List.map_map, List.pairwise_map]
  refine List.pairwise_lt_range.imp_of_mem fun {i j} _ hj hlt => Fin.lt_def.mpr ?_
  have hj := List.mem_range.mp hj
  change 2 * i % 2 ^ 64 < 2 * j % 2 ^ 64
  omega

theorem scan_eq_forty : (bulkLoad (evenPairs 40) >>= fun fast =>
    fast.scan (.ofNat 5) 3 fun _ => (.ofNat 0, 0)) =
      some (3, fun j => [(.ofNat 6, 3), (.ofNat 8, 4), (.ofNat 10, 5)][j]?.getD (.ofNat 0, 0)) := by
  have hlength : min 3 ((evenPairs 40).filter fun kv => Word.ofNat 5 ≤ kv.1).length = 3 := by
    decide +kernel
  have htake : ((evenPairs 40).filter fun kv => Word.ofNat 5 ≤ kv.1).take 3 =
      [(.ofNat 6, 3), (.ofNat 8, 4), (.ofNat 10, 5)] := by decide +kernel
  rw [scan_eq (pairwise_evenPairs (by decide)) (by decide) (by decide) (.ofNat 5) 3, hlength,
    htake]

def lookup (kvs : List (Word × P)) (key : Word) (val : P) : Bool × P :=
  ((kvs.lookup key).isSome, (kvs.lookup key).getD val)

theorem lookup_eq_of_bound (hsorted : (kvs.map Prod.fst).Pairwise (· < ·)) {key : Word} {lb : ℕ}
    (hless : ∀ j (hj : j < kvs.length), kvs[j].1 < key ↔ j < lb) (hlb : lb < kvs.length) (val : P) :
    lookup kvs key val = if kvs[lb].1 = key then (true, kvs[lb].2) else (false, val) := by
  have hbefore : (kvs.take lb).lookup key = none := by
    rw [List.lookup_eq_none_iff]
    intro kv hkv
    obtain ⟨j, hj, rfl⟩ := List.mem_iff_getElem.mp hkv
    rw [List.length_take] at hj
    rw [List.getElem_take]
    exact bne_iff_ne.mpr ((hless j (by omega)).mpr (by omega)).ne'
  have hafter : (kvs.drop (lb + 1)).lookup key = none := by
    rw [List.lookup_eq_none_iff]
    intro kv hkv
    obtain ⟨j, hj, rfl⟩ := List.mem_iff_getElem.mp hkv
    rw [List.length_drop] at hj
    rw [List.getElem_drop]
    have hge : key ≤ kvs[lb].1 := not_lt.mp ((hless lb hlb).not.mpr (lt_irrefl lb))
    have hgt : kvs[lb].1 < kvs[lb + 1 + j].1 := by
      rw [List.pairwise_map] at hsorted
      exact List.pairwise_iff_getElem.mp hsorted _ _ _ _ (by omega)
    exact bne_iff_ne.mpr (hge.trans_lt hgt).ne
  have hsplit : kvs.lookup key = (kvs[lb] :: kvs.drop (lb + 1)).lookup key := by
    conv_lhs => rw [← List.take_append_drop lb kvs, List.lookup_append, hbefore, Option.none_or]
    rw [List.drop_eq_getElem_cons hlb]
  rw [lookup, hsplit]
  obtain ⟨k, v⟩ := kvs[lb]
  generalize kvs.drop (lb + 1) = rest at hafter
  split
  case isTrue heq => simp [show k = key from heq]
  case isFalse hne => simp [List.lookup_cons, hafter, beq_false_of_ne (Ne.symm hne)]

/-- `get` answers as the array does up to the largest key.  Behind it, `lower_bound` is the number
of keys, and `kvs` is read out of bounds. -/
theorem get_eq_lookup_iff (hsorted : (kvs.map Prod.fst).Pairwise (· < ·)) (hpos : 0 < kvs.length)
    (hlt : kvs.length < 2 ^ 30) (key : Word) (val : P) :
    (bulkLoad kvs >>= fun fast => fast.get key val) = some (lookup kvs key val) ↔
      ∃ kv ∈ kvs, key ≤ kv.1 := by
  obtain ⟨index, hload, hbound⟩ := bulkLoad_spec hsorted hpos hlt
  obtain ⟨lb, hle, hlb, hless⟩ := hbound key
  rw [hload, Option.bind_eq_bind, Option.bind_some, FastInterface.get, hlb, Option.bind_eq_bind,
    Option.bind_some]
  rcases Nat.lt_or_ge lb kvs.length with hin | hout
  case inl =>
    have hge : key ≤ kvs[lb].1 := not_lt.mp ((hless lb hin).not.mpr (lt_irrefl lb))
    refine iff_of_true ?_ ⟨kvs[lb], List.getElem_mem hin, hge⟩
    rw [List.getElem?_eq_getElem hin, lookup_eq_of_bound hsorted hless hin, Option.bind_eq_bind,
      Option.bind_some]
    split <;> rfl
  case inr =>
    refine iff_of_false ?_ ?_
    · simp [List.getElem?_eq_none hout]
    · rintro ⟨kv, hkv, hkey⟩
      obtain ⟨j, hj, rfl⟩ := List.mem_iff_getElem.mp hkv
      exact absurd ((hless j hj).mpr (by omega)) (not_lt.mpr hkey)

theorem get_eq_lookup_five :
    (bulkLoad [(Word.ofNat 2, 20), (Word.ofNat 5, 50)] >>= fun fast =>
      fast.get (Word.ofNat 5) 0) = some (true, 50) := by
  refine ((get_eq_lookup_iff ?_ ?_ ?_ (Word.ofNat 5) 0).mpr ?_).trans ?_
  · decide
  · decide
  · decide
  · decide
  · decide

theorem get_ne_lookup_nine :
    (bulkLoad [(Word.ofNat 2, 20), (Word.ofNat 5, 50)] >>= fun fast =>
      fast.get (Word.ofNat 9) 0) ≠ some (lookup [(Word.ofNat 2, 20), (Word.ofNat 5, 50)]
        (Word.ofNat 9) 0) := by
  decide +kernel

end Interface

end LearnedIndexFramework.Fast
