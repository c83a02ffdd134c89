import LearnedIndexFramework.Fast.Model

/-! What `buildFAST` stores: every subtree's keys, level by level, in blocks of blocks. -/

namespace LearnedIndexFramework.Fast

open Lib

@[simp] theorem simdDepth_eq : simdDepth = 2 := by decide

@[simp] theorem cacheLineDepth_eq : cacheLineDepth = 3 := by decide

@[simp] theorem pageDepth_eq : pageDepth = 18 := by decide +kernel

@[simp] theorem pageCacheDepth_eq : pageCacheDepth = 15 := by decide +kernel

@[simp] theorem pageSize_eq : pageSize = 2 ^ 18 := by decide

def paddedKey (l : List Word) (idx : ℕ) : Word := l.getD idx maxKey

theorem keyAt_eq (l : List Word) (idx : ℕ) : keyAt l l.length idx = some (paddedKey l idx) := by
  rw [keyAt, paddedKey, List.getD_eq_getElem?_getD]
  split
  case isTrue h => rw [List.getElem?_eq_getElem h, Option.getD_some]
  case isFalse h => rw [List.getElem?_eq_none (by omega), Option.getD_none]

theorem median_eq {m : ℕ} (i : ℕ) (hm : 0 < m) :
    median i (i + 2 ^ m - 1) = i + 2 ^ (m - 1) - 1 := by
  obtain ⟨m, rfl⟩ : ∃ m', m = m' + 1 := ⟨m - 1, by omega⟩
  have hpow : 2 ^ (m + 1) = 2 * 2 ^ m := by ring
  have hpos : 0 < 2 ^ m := Nat.two_pow_pos m
  rw [median, Nat.add_sub_cancel]
  omega

theorem chunk_eq {m level : ℕ} (i : ℕ) (h : level ≤ m) :
    (i + 2 ^ m - i) / 2 ^ level = 2 ^ (m - level) := by
  rw [Nat.add_sub_cancel_left, Nat.pow_div h two_pos]

/-! ### Contents -/

section Cells

variable (l : List Word)

def nodeCells (i m : ℕ) : List (Option Word) := [some (paddedKey l (i + 2 ^ (m - 1) - 1))]

def simdCells (i m levels : ℕ) : List (Option Word) :=
  layers (fun _ i m _ => nodeCells l i m) 1 levels i m 0

def cacheCells (i m levels : ℕ) : List (Option Word) :=
  padTo (2 ^ levels) (layers (fun _ => simdCells l) 2 levels i m 0)

def pageCells (i m levels : ℕ) : List (Option Word) :=
  padTo (2 ^ (levels + 1)) (layers (fun _ => cacheCells l) 3 levels i m 0)

/-- All but the pages of the last layer are of `PAGE_SIZE`. -/
def treePageCells (depth level i m levels : ℕ) : List (Option Word) :=
  if level + 15 < depth then padTo (2 ^ 18) (pageCells l i m levels) else pageCells l i m levels

def treeCells (depth : ℕ) : List (Option Word) :=
  layers (treePageCells l depth) 15 depth 0 depth 0

variable {l}

theorem length_simdCells (i m levels : ℕ) : (simdCells l i m levels).length = 2 ^ levels - 1 := by
  refine Nat.eq_sub_of_add_eq (length_layers_full (fun level => 2 ^ min 1 (levels - level) - 1)
    one_pos ?_ ?_ levels.zero_le)
  · intro level i m hlevel
    rw [min_eq_left (by omega)]
    rfl
  · intro level
    exact Nat.sub_add_cancel Nat.one_le_two_pow

theorem length_simdLayers (i m levels : ℕ) :
    (layers (fun _ => simdCells l) 2 levels i m 0).length = 2 ^ levels - 1 :=
  Nat.eq_sub_of_add_eq (length_layers_full _ two_pos (fun _ i m _ => length_simdCells i m _)
    (fun _ => Nat.sub_add_cancel Nat.one_le_two_pow) levels.zero_le)

theorem length_cacheCells (i m levels : ℕ) : (cacheCells l i m levels).length = 2 ^ levels := by
  apply length_padTo
  rw [length_simdLayers]
  exact Nat.sub_le _ _

theorem length_cacheLayers_le (i m levels : ℕ) :
    (layers (fun _ => cacheCells l) 3 levels i m 0).length ≤ 2 ^ (levels + 1) := by
  have hle : (layers (fun _ => cacheCells l) 3 levels i m 0).length + 2 ^ (0 + 1) ≤
      2 ^ (levels + 1) :=
    length_layers_le _ three_pos (fun _ i m _ => length_cacheCells i m _) (fun _ => rfl)
      levels.zero_le
  omega

theorem length_pageCells (i m levels : ℕ) : (pageCells l i m levels).length = 2 ^ (levels + 1) :=
  length_padTo (length_cacheLayers_le i m levels)

def pageActualDepth (depth level : ℕ) : ℕ :=
  if level + 15 < depth then 18 else min 15 (depth - level) + 1

theorem length_treePageCells (depth level i m : ℕ) :
    (treePageCells l depth level i m (min 15 (depth - level))).length =
      2 ^ pageActualDepth depth level := by
  rw [treePageCells, pageActualDepth]
  split
  · apply length_padTo
    rw [length_pageCells]
    exact Nat.pow_le_pow_right two_pos (by omega)
  · exact length_pageCells i m _

theorem length_treeCells {depth : ℕ} (hpos : 0 < depth) (h : depth ≤ 30) :
    (treeCells l depth).length = allocated depth := by
  have hwidth (level i m : ℕ) (_ : level < depth) := length_treePageCells (l := l) depth level i m
  rw [treeCells, layers_of_lt (by omega) hpos, List.length_append, length_layer _ hwidth hpos,
    Nat.zero_add, Nat.sub_zero, allocated, pageCacheDepth_eq, pageDepth_eq, Nat.add_sub_cancel_left]
  rcases Nat.lt_or_ge 15 depth with hlt | hge
  case inl =>
    have hdiv : (depth - 1) / 15 = 1 := by omega
    have htwo : 15 + min 15 (depth - 15) = depth := by omega
    have hlast : 2 ^ 15 * 2 ^ (depth - 15 + 1) = 2 ^ (depth + 1) := by
      rw [← pow_add, Nat.add_comm 15, Nat.add_right_comm, Nat.sub_add_cancel (by omega)]
    rw [min_eq_left (by omega), layers_of_lt (by omega) hlt, List.length_append,
      length_layer _ hwidth hlt, htwo, layers_of_le (by omega) le_rfl, pageActualDepth,
      if_pos (by omega), pageActualDepth, if_neg (by omega), min_eq_right (by omega), hlast, hdiv]
    rfl
  case inr =>
    have hdiv : (depth - 1) / 15 = 0 := by omega
    rw [min_eq_right hge, layers_of_le (by omega) le_rfl, pageActualDepth, if_neg (by omega),
      min_eq_right (by omega), hdiv]
    simp

end Cells

/-! ### Building -/

section Store

variable (l : List Word)

theorem fills_simdCells (i : ℕ) {m levels : ℕ} (h : levels ≤ m) :
    Fills (fun s => storeSIMDblock l l.length s i (i + 2 ^ m) levels) (simdCells l i m levels) := by
  refine fills_layers one_pos ?_
  intro level cl hlevel
  have hroot := median_eq (i + cl * 2 ^ (m - level)) (m := m - level) (by omega)
  rw [Nat.add_assoc, ← Nat.succ_mul] at hroot
  simp only [chunk_eq i (show level ≤ m by omega), hroot, keyAt_eq]
  exact fills_write _

theorem fills_cacheCells (i : ℕ) {m levels : ℕ} (h : levels ≤ m) :
    Fills (fun s => storeCachelineBlock l l.length s i (i + 2 ^ m) levels)
      (cacheCells l i m levels) := by
  refine Fills.pad ?_ (by rw [length_simdLayers]; exact Nat.sub_le _ _) fun _ _ => rfl
  refine fills_layers two_pos ?_
  intro level cl hlevel
  have hsimd := fills_simdCells l (i + cl * 2 ^ (m - level))
    (show min 2 (levels - level) ≤ m - level by omega)
  rw [Nat.add_assoc, ← Nat.succ_mul] at hsimd
  simp only [chunk_eq i (show level ≤ m by omega), simdDepth_eq, min_comm (levels - level)]
  exact hsimd

theorem fills_pageCells (i : ℕ) {m levels : ℕ} (h : levels ≤ m) :
    Fills (fun s => storeFASTpage l l.length s i (i + 2 ^ m) levels) (pageCells l i m levels) := by
  have hle := length_cacheLayers_le (l := l) i m levels
  refine Fills.pad ?_ hle ?_
  · refine fills_layers three_pos ?_
    intro level cl hlevel
    have hcache := fills_cacheCells l (i + cl * 2 ^ (m - level))
      (show min 3 (levels - level) ≤ m - level by omega)
    rw [Nat.add_assoc, ← Nat.succ_mul] at hcache
    simp only [chunk_eq i (show level ≤ m by omega), cacheLineDepth_eq]
    exact hcache
  · intro s mem
    simp [guard, hle]

theorem fills_treePageCells (i : ℕ) {depth level m : ℕ} (h : min 15 (depth - level) ≤ m) :
    Fills (fun s => storePage l l.length depth level s i (i + 2 ^ m))
      (treePageCells l depth level i m (min 15 (depth - level))) := by
  have hpage := fills_pageCells l i h
  simp only [storePage, treePageCells, pageCacheDepth_eq]
  split
  case isTrue hinner =>
    have hlevels : min 15 (depth - level) = 15 := by omega
    rw [hlevels] at hpage ⊢
    exact hpage.pad (by rw [length_pageCells]; decide) fun _ _ => by rw [pageSize_eq]; rfl
  case isFalse hlast =>
    rwa [min_eq_right (by omega)] at hpage ⊢

theorem fills_treeCells (depth : ℕ) :
    Fills (fun s => storePages l l.length depth s) (treeCells l depth) := by
  refine fills_layers (by decide) ?_
  intro level cl hlevel
  have hpage := fills_treePageCells l (0 + cl * 2 ^ (depth - level))
    (show min 15 (depth - level) ≤ depth - level by omega)
  rw [Nat.zero_add, ← Nat.succ_mul] at hpage
  simp only [Nat.zero_add, Nat.pow_div hlevel.le two_pos]
  exact hpage

theorem buildFAST_eq (hpos : 0 < l.length) (hlt : l.length < 2 ^ 30) :
    ∃ v, buildFAST l l.length = some ⟨Nat.log2 l.length + 1, l.length, v⟩ ∧
      Holds v 0 (treeCells l (Nat.log2 l.length + 1)) := by
  have hle : Nat.log2 l.length + 1 ≤ 30 := (Nat.log2_lt (by omega)).mpr hlt
  have hsize := length_treeCells (l := l) (Nat.log2 l.length).succ_pos hle
  obtain ⟨v, heq, -, -, hholds⟩ := fills_treeCells l (Nat.log2 l.length + 1)
    (List.replicate (allocated (Nat.log2 l.length + 1)) (Word.ofNat 0)) 0
    (by rw [List.length_replicate, hsize, Nat.zero_add])
  refine ⟨v, ?_, hholds⟩
  simp [buildFAST, heq, hsize, guard]

end Store

end LearnedIndexFramework.Fast
