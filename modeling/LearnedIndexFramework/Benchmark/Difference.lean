import LearnedIndexFramework.Benchmark.Load
import Mathlib.Data.List.Dedup

/-! `unique_data`: the keys of one array that do not occur in another.  The loop that skips smaller
keys compares first and looks at the bound afterwards, so a key above all others of the first array
is compared with what lies behind them. -/

namespace LearnedIndexFramework.Benchmark

variable {K : Type}

/-- The local variables of `unique_data`.  `outside` records a read of `key1` from `size1` on, or of
`key2` from `size2` on. -/
structure Merge (K : Type) where
  ptr1 : ℕ := 0
  ptr2 : ℕ := 0
  result : ℕ := 0
  key2 : ℕ → K
  outside : Bool := false

namespace Merge

variable (size1 size2 : ℕ)

def look (s : Merge K) : Merge K :=
  { s with outside := s.outside || decide (size1 ≤ s.ptr1) || decide (size2 ≤ s.ptr2) }

def copy (s : Merge K) : Merge K :=
  { s with
    ptr2 := s.ptr2 + 1
    result := s.result + 1
    key2 := Function.update s.key2 s.result (s.key2 s.ptr2)
    outside := s.outside || decide (size2 ≤ s.ptr2) }

def copyRest : ℕ → Merge K → Merge K
  | 0, s => s
  | n + 1, s => if s.ptr2 < size2 then copyRest n (s.copy size2) else s

section Outside

variable {size1 size2 : ℕ} {s : Merge K}

theorem look_outside (h : s.outside = true) : (s.look size1 size2).outside = true := by
  simp [look, h]

theorem copy_outside (h : s.outside = true) : (s.copy size2).outside = true := by
  simp [copy, h]

theorem copyRest_outside (n : ℕ) (h : s.outside = true) :
    (copyRest size2 n s).outside = true := by
  induction n generalizing s with
  | zero => exact h
  | succ n ih =>
    rw [copyRest]
    split
    · exact ih (copy_outside h)
    · exact h

end Outside

variable [LinearOrder K] (key1 : ℕ → K)

/-- `while (key1[ptr1] < key2[ptr2] && ptr1 < size1) ptr1++;`.  There are `size1 - ptr1` keys to
skip; behind them only the comparison is left. -/
def skip : ℕ → Merge K → Merge K
  | 0, s => s.look size1 size2
  | n + 1, s =>
    let s := s.look size1 size2
    if key1 s.ptr1 < s.key2 s.ptr2 ∧ s.ptr1 < size1 then skip n { s with ptr1 := s.ptr1 + 1 } else s

def step (s : Merge K) : Merge K :=
  let s := skip size1 size2 key1 (size1 - s.ptr1) s
  let s := s.look size1 size2
  if key1 s.ptr1 = s.key2 s.ptr2 then { s with ptr2 := s.ptr2 + 1 } else s.copy size2

/-- Every round of the first loop is for one key of `key2`. -/
def run : ℕ → Merge K → Merge K
  | 0, s => s
  | n + 1, s =>
    if s.ptr1 < size1 ∧ s.ptr2 < size2 then run n (step size1 size2 key1 s) else s

end Merge

def inMemory (mem : ℕ → K) (keys : List K) (i : ℕ) : K := (keys[i]?).getD (mem i)

theorem inMemory_of_lt {mem : ℕ → K} {keys : List K} {i : ℕ} (hi : i < keys.length) :
    inMemory mem keys i = keys[i] := by
  rw [inMemory, List.getElem?_eq_getElem hi, Option.getD_some]

/-- What `unique_data` leaves behind: both sizes, the first `size2` elements of `key2`, behind which
the returned pointer points, and whether the merge read outside. -/
structure UniqueData (K : Type) where
  size1 : ℕ
  size2 : ℕ
  key2 : List K
  outside : Bool

variable [LinearOrder K]

/-- `unique_data`.  What `std::unique` and the owner of the memory leave behind the distinct keys is
an argument, and so is `std::random_shuffle`. -/
def uniqueData (mem1 mem2 : ℕ → K) (randomShuffle : ∀ xs : List K, {ys : List K // ys.Perm xs})
    (key1 key2 : List K) : UniqueData K :=
  let size1 := (sortUnique key1).length
  let size2 := (sortUnique key2).length
  let s := Merge.run size1 size2 (inMemory mem1 (sortUnique key1)) size2
    { key2 := inMemory mem2 (sortUnique key2) }
  let s := s.copyRest size2 size2
  {
    size1
    size2 := s.result
    key2 := (randomShuffle ((List.range s.result).map s.key2)).1
    outside := s.outside }

structure UniqueData.IsDifference (key1 key2 : List K) (r : UniqueData K) : Prop where
  keys : r.key2.Perm (key2.dedup.filter (· ∉ key1))
  length : r.key2.length = r.size2
  size1 : r.size1 = key1.dedup.length
  inside : r.outside = false

namespace Merge

section Skip

variable {size1 size2 : ℕ} {key1 : ℕ → K} {s : Merge K}

theorem skip_spec (n : ℕ) (hn : size1 = s.ptr1 + n) (hptr2 : s.ptr2 < size2) :
    ∃ p, skip size1 size2 key1 n s =
        { s with ptr1 := p, outside := s.outside || decide (size1 ≤ p) } ∧
      s.ptr1 ≤ p ∧ p ≤ size1 ∧ (∀ i, s.ptr1 ≤ i → i < p → key1 i < s.key2 s.ptr2) ∧
      (p < size1 → s.key2 s.ptr2 ≤ key1 p) := by
  induction n generalizing s with
  | zero =>
    refine ⟨s.ptr1, ?_, le_rfl, hn.ge, by omega, by omega⟩
    have hbehind : size1 ≤ s.ptr1 := by omega
    simp [skip, look, hbehind, hptr2.not_ge]
  | succ n ih =>
    have hinside : s.look size1 size2 = s := by
      have hlt : s.ptr1 < size1 := by omega
      simp [look, hptr2.not_ge, hlt.not_ge]
    simp only [skip, hinside]
    split
    · next hsmaller =>
      obtain ⟨p, heq, hge, hle, hskipped, hstop⟩ :=
        ih (s := { s with ptr1 := s.ptr1 + 1 }) (by dsimp only; omega) hptr2
      refine ⟨p, heq, Nat.le_of_succ_le hge, hle, fun i hi hip => ?_, hstop⟩
      rcases Nat.eq_or_lt_of_le hi with rfl | hlt
      · exact hsmaller.1
      · exact hskipped i hlt hip
    · next hnot =>
      have hlt : s.ptr1 < size1 := by omega
      refine ⟨s.ptr1, ?_, le_rfl, hlt.le, by omega, fun _ => ?_⟩
      · simp [hlt.not_ge]
      · exact not_lt.mp fun hsmaller => hnot ⟨hsmaller, hlt⟩

theorem skip_outside (n : ℕ) (h : s.outside = true) :
    (skip size1 size2 key1 n s).outside = true := by
  induction n generalizing s with
  | zero => exact look_outside h
  | succ n ih =>
    simp only [skip]
    split
    · exact ih (look_outside h)
    · exact look_outside h

theorem step_outside (h : s.outside = true) : (step size1 size2 key1 s).outside = true := by
  have hskip : (skip size1 size2 key1 (size1 - s.ptr1) s).outside = true := skip_outside _ h
  simp only [step]
  split
  · exact look_outside hskip
  · exact copy_outside (look_outside hskip)

theorem run_outside (n : ℕ) (h : s.outside = true) :
    (run size1 size2 key1 n s).outside = true := by
  induction n generalizing s with
  | zero => exact h
  | succ n ih =>
    rw [run]
    split
    · exact ih (step_outside h)
    · exact h

end Skip

structure Inv (key1 : ℕ → K) (A B : List K) (s : Merge K) : Prop where
  result_le : s.result ≤ s.ptr2
  unread : ∀ j (hj : j < B.length), s.ptr2 ≤ j → s.key2 j = B[j]
  kept : (List.range s.result).map s.key2 = (B.take s.ptr2).filter (· ∉ A)
  below : ∀ i < s.ptr1, ∀ j (hj : j < B.length), s.ptr2 ≤ j → key1 i < B[j]
  inside : s.outside = false

section Inv

variable {mem : ℕ → K} {A B : List K} {s : Merge K}

theorem Inv.start (key1 : ℕ → K) (A B : List K) : Inv key1 A B { key2 := inMemory mem B } where
  result_le := le_rfl
  unread _ hj _ := inMemory_of_lt hj
  kept := rfl
  below i hi := absurd hi (Nat.not_lt_zero i)
  inside := rfl

theorem Inv.skip {p : ℕ} {key1 : ℕ → K} (hinv : Inv key1 A B s) (hptr2 : s.ptr2 < B.length)
    (hB : B.Pairwise (· < ·))
    (hskipped : ∀ i, s.ptr1 ≤ i → i < p → key1 i < s.key2 s.ptr2) :
    Inv key1 A B { s with ptr1 := p } where
  result_le := hinv.result_le
  unread := hinv.unread
  kept := hinv.kept
  below i hi j hj hle := by
    rcases Nat.lt_or_ge i s.ptr1 with hbefore | hbehind
    · exact hinv.below i hbefore j hj hle
    · have hfirst : key1 i < B[s.ptr2] := hinv.unread _ hptr2 le_rfl ▸ hskipped i hbehind hi
      rcases Nat.eq_or_lt_of_le hle with rfl | hlt
      · exact hfirst
      · exact hfirst.trans (List.pairwise_iff_getElem.mp hB _ _ hptr2 hj hlt)
  inside := hinv.inside

theorem Inv.drop {key1 : ℕ → K} (hinv : Inv key1 A B s) (hptr2 : s.ptr2 < B.length)
    (hmem : B[s.ptr2] ∈ A) : Inv key1 A B { s with ptr2 := s.ptr2 + 1 } where
  result_le := hinv.result_le.trans (Nat.le_succ _)
  unread j hj hle := hinv.unread j hj (Nat.le_of_succ_le hle)
  kept := by
    rw [List.take_succ_eq_append_getElem hptr2, List.filter_append, ← hinv.kept]
    simp [hmem]
  below i hi j hj hle := hinv.below i hi j hj (Nat.le_of_succ_le hle)
  inside := hinv.inside

theorem Inv.copy {key1 : ℕ → K} (hinv : Inv key1 A B s) (hptr2 : s.ptr2 < B.length)
    (hnot : B[s.ptr2] ∉ A) : Inv key1 A B (s.copy B.length) where
  result_le := Nat.succ_le_succ hinv.result_le
  unread j hj hle := by
    -- the place that is written lies before the ones still to be read
    have hne : j ≠ s.result := by
      have := hinv.result_le
      simp only [Merge.copy] at hle
      omega
    exact (Function.update_of_ne hne _ _).trans (hinv.unread j hj (Nat.le_of_succ_le hle))
  kept := by
    have hprefix : (List.range s.result).map (Function.update s.key2 s.result (s.key2 s.ptr2)) =
        (List.range s.result).map s.key2 :=
      List.map_congr_left fun i hi => Function.update_of_ne (List.mem_range.mp hi).ne _ _
    simp only [Merge.copy]
    rw [List.take_succ_eq_append_getElem hptr2, List.filter_append, ← hinv.kept, List.range_succ,
      List.map_append, hprefix]
    simp [hnot, hinv.unread _ hptr2 le_rfl]
  below i hi j hj hle := hinv.below i hi j hj (Nat.le_of_succ_le hle)
  inside := by simp [Merge.copy, hinv.inside, hptr2.not_ge]

theorem Inv.step (hA : A.Pairwise (· < ·)) (hB : B.Pairwise (· < ·))
    (hinv : Inv (inMemory mem A) A B s) (hptr1 : s.ptr1 < A.length) (hptr2 : s.ptr2 < B.length) :
    if ∃ x ∈ A, B[s.ptr2] ≤ x then
      Inv (inMemory mem A) A B (step A.length B.length (inMemory mem A) s) ∧
        (step A.length B.length (inMemory mem A) s).ptr1 < A.length ∧
        (step A.length B.length (inMemory mem A) s).ptr2 = s.ptr2 + 1
    else (step A.length B.length (inMemory mem A) s).outside = true := by
  obtain ⟨p, hskip, hge, hle, hskipped, hstop⟩ :=
    @skip_spec K _ A.length B.length (inMemory mem A) s (A.length - s.ptr1) (by omega) hptr2
  have hkey := hinv.unread _ hptr2 le_rfl
  have hinv' := hinv.skip hptr2 hB hskipped
  have hbelow : ∀ i (hi : i < A.length), i < p → A[i] < B[s.ptr2] := by
    intro i hi hip
    have hlt := hinv'.below i hip _ hptr2 le_rfl
    rwa [inMemory_of_lt hi] at hlt
  simp only [Merge.step, hskip]
  split
  case isFalse hnone =>
    have hp : A.length ≤ p := by
      by_contra hlt
      rw [not_le] at hlt
      have hfound : inMemory mem A p = A[p] := inMemory_of_lt hlt
      exact hnone ⟨A[p], List.getElem_mem hlt, hfound ▸ hkey ▸ hstop hlt⟩
    split
    · simp [look, hp]
    · simp [look, Merge.copy, hp]
  case isTrue hsome =>
    have hp : p < A.length := by
      obtain ⟨x, hx, hxle⟩ := hsome
      obtain ⟨i, hi, rfl⟩ := List.getElem_of_mem hx
      by_contra hlt
      exact (hbelow i hi (by omega)).not_ge hxle
    have hinside : look A.length B.length { s with
        ptr1 := p, outside := s.outside || decide (A.length ≤ p) } = { s with ptr1 := p } := by
      simp [look, hp.not_ge, hptr2.not_ge]
    have hfound : inMemory mem A p = A[p] := inMemory_of_lt hp
    rw [hinside]
    dsimp only
    rw [hfound, hkey]
    split
    case isTrue heq => exact ⟨hinv'.drop hptr2 (heq ▸ List.getElem_mem hp), hp, rfl⟩
    case isFalse hne =>
      refine ⟨hinv'.copy hptr2 fun hmem => ?_, hp, rfl⟩
      obtain ⟨i, hi, hi'⟩ := List.getElem_of_mem hmem
      have hle' : B[s.ptr2] ≤ A[p] := hfound ▸ hkey ▸ hstop hp
      rcases Nat.lt_trichotomy i p with hlt | rfl | hgt
      · exact (hbelow i hi hlt).ne hi'
      · exact hne hi'
      · exact (hle'.trans_lt (List.pairwise_iff_getElem.mp hA p i hp hi hgt)).ne' hi'

theorem Inv.run (hA : A.Pairwise (· < ·)) (hB : B.Pairwise (· < ·))
    (hinv : Inv (inMemory mem A) A B s) (hptr1 : s.ptr1 < A.length) (n : ℕ)
    (hn : B.length ≤ s.ptr2 + n) :
    if ∀ j (hj : j < B.length), s.ptr2 ≤ j → ∃ x ∈ A, B[j] ≤ x then
      Inv (inMemory mem A) A B (run A.length B.length (inMemory mem A) n s) ∧
        B.length ≤ (run A.length B.length (inMemory mem A) n s).ptr2
    else (run A.length B.length (inMemory mem A) n s).outside = true := by
  induction n generalizing s with
  | zero =>
    rw [if_pos fun j hj hle => absurd hj (by omega)]
    exact ⟨hinv, hn⟩
  | succ n ih =>
    rcases Nat.lt_or_ge s.ptr2 B.length with hptr2 | hptr2
    case inr =>
      have hround : Merge.run A.length B.length (inMemory mem A) (n + 1) s = s :=
        if_neg fun hand => hptr2.not_gt hand.2
      rw [hround, if_pos fun j hj hle => absurd hj (by omega)]
      exact ⟨hinv, hptr2⟩
    case inl =>
      have hstep := hinv.step hA hB hptr1 hptr2
      have hround : Merge.run A.length B.length (inMemory mem A) (n + 1) s =
          Merge.run A.length B.length (inMemory mem A) n
            (Merge.step A.length B.length (inMemory mem A) s) := if_pos ⟨hptr1, hptr2⟩
      rw [hround]
      by_cases hsome : ∃ x ∈ A, B[s.ptr2] ≤ x
      case neg =>
        rw [if_neg hsome] at hstep
        rw [if_neg fun hall => hsome (hall _ hptr2 le_rfl)]
        exact run_outside n hstep
      case pos =>
        rw [if_pos hsome] at hstep
        obtain ⟨hinv', hptr1', hptr2'⟩ := hstep
        have hrest : (∀ j (hj : j < B.length), s.ptr2 ≤ j → ∃ x ∈ A, B[j] ≤ x) ↔
            ∀ j (hj : j < B.length), s.ptr2 + 1 ≤ j → ∃ x ∈ A, B[j] ≤ x := by
          refine ⟨fun hall j hj hle => hall j hj (Nat.le_of_succ_le hle), fun hall j hj hle => ?_⟩
          rcases Nat.eq_or_lt_of_le hle with rfl | hlt
          · exact hsome
          · exact hall j hj hlt
        have hrun := ih hinv' hptr1' (by omega)
        rw [hptr2'] at hrun
        simp only [hrest]
        exact hrun

theorem Inv.copyRest {key1 : ℕ → K} (hinv : Inv key1 A B s) (n : ℕ) (hn : B.length ≤ s.ptr2 + n)
    (hrest : ∀ j (hj : j < B.length), s.ptr2 ≤ j → B[j] ∉ A) :
    Inv key1 A B (s.copyRest B.length n) ∧ B.length ≤ (s.copyRest B.length n).ptr2 := by
  induction n generalizing s with
  | zero => exact ⟨hinv, hn⟩
  | succ n ih =>
    rw [Merge.copyRest]
    split
    · next hptr2 =>
      exact ih (hinv.copy hptr2 (hrest _ hptr2 le_rfl)) (by simp only [Merge.copy]; omega)
        fun j hj hle => hrest j hj (Nat.le_of_succ_le hle)
    · next hptr2 => exact ⟨hinv, not_lt.mp hptr2⟩

end Inv

end Merge

section Spec

variable {mem1 mem2 : ℕ → K} {randomShuffle : ∀ xs : List K, {ys : List K // ys.Perm xs}}
  {key1 key2 : List K}

theorem isDifference_of_inv {key : ℕ → K} {s : Merge K}
    (hinv : s.Inv key (sortUnique key1) (sortUnique key2))
    (hptr2 : (sortUnique key2).length ≤ s.ptr2) :
    UniqueData.IsDifference key1 key2 {
      size1 := (sortUnique key1).length
      size2 := s.result
      key2 := (randomShuffle ((List.range s.result).map s.key2)).1
      outside := s.outside } where
  keys := by
    refine (randomShuffle _).2.trans ?_
    rw [hinv.kept, List.take_of_length_le hptr2]
    simp only [mem_sortUnique]
    exact (sortUnique_perm_dedup key2).filter _
  length := by simp [(randomShuffle _).2.length_eq]
  size1 := (sortUnique_perm_dedup key1).length_eq
  inside := hinv.inside

theorem run_of_empty (size2 n : ℕ) (key : ℕ → K) (s : Merge K) :
    s.run (sortUnique ([] : List K)).length size2 key n = s := by
  cases n with
  | zero => rfl
  | succ n => exact if_neg fun hand => Nat.not_lt_zero _ hand.1

theorem forall_sortUnique_iff :
    (∀ j (hj : j < (sortUnique key2).length), 0 ≤ j → ∃ x ∈ sortUnique key1, (sortUnique key2)[j] ≤ x) ↔
      ∀ y ∈ key2, ∃ x ∈ key1, y ≤ x := by
  constructor
  · intro hall y hy
    obtain ⟨j, hj, rfl⟩ := List.getElem_of_mem (mem_sortUnique.mpr hy)
    obtain ⟨x, hx, hle⟩ := hall j hj (Nat.zero_le j)
    exact ⟨x, mem_sortUnique.mp hx, hle⟩
  · intro hall j hj _
    obtain ⟨x, hx, hle⟩ := hall _ (mem_sortUnique.mp (List.getElem_mem hj))
    exact ⟨x, mem_sortUnique.mpr hx, hle⟩

end Spec

/-- The difference is computed, and computed inside the arrays, exactly when the first array is empty
or no key of the second one lies above all of its keys. -/
theorem uniqueData_isDifference_iff (mem1 mem2 : ℕ → K)
    (randomShuffle : ∀ xs : List K, {ys : List K // ys.Perm xs}) (key1 key2 : List K) :
    (uniqueData mem1 mem2 randomShuffle key1 key2).IsDifference key1 key2 ↔
      key1 = [] ∨ ∀ y ∈ key2, ∃ x ∈ key1, y ≤ x := by
  have hstart := @Merge.Inv.start K _ mem2 (inMemory mem1 (sortUnique key1)) (sortUnique key1)
    (sortUnique key2)
  by_cases hempty : key1 = []
  case pos =>
    subst hempty
    have hrest := hstart.copyRest (sortUnique key2).length (Nat.zero_add _).ge
      fun j hj _ => List.not_mem_nil
    rw [← run_of_empty (sortUnique key2).length (sortUnique key2).length
      (inMemory mem1 (sortUnique [])) { key2 := inMemory mem2 (sortUnique key2) }] at hrest
    exact iff_of_true (isDifference_of_inv hrest.1 hrest.2) (.inl rfl)
  case neg =>
    have hrun := hstart.run (sortUnique_pairwise key1) (sortUnique_pairwise key2)
      (List.length_pos_of_ne_nil (sortUnique_ne_nil hempty)) (sortUnique key2).length
      (Nat.zero_add _).ge
    simp only [forall_sortUnique_iff] at hrun
    rw [or_iff_right hempty]
    split at hrun
    · next hall =>
      have hrest := hrun.1.copyRest (sortUnique key2).length (hrun.2.trans (Nat.le_add_right _ _))
        fun j hj hle => absurd hj (hrun.2.trans hle).not_gt
      exact iff_of_true (isDifference_of_inv hrest.1 hrest.2) hall
    · next hnot =>
      refine iff_of_false (fun hdiff => ?_) hnot
      exact Bool.noConfusion (hdiff.inside.symm.trans (Merge.copyRest_outside _ hrun))

theorem uniqueData_above :
    uniqueData (fun _ => 2) (fun _ => 0) (fun xs => ⟨xs, .refl xs⟩) [1] [2] =
      { size1 := 1, size2 := 0, key2 := [], outside := true } ∧
    ¬ (uniqueData (fun _ => 2) (fun _ => 0) (fun xs => ⟨xs, .refl xs⟩) [1] [2]).IsDifference
      [1] [2] := by
  have hrun : uniqueData (fun _ => 2) (fun _ => 0) (fun xs => ⟨xs, .refl xs⟩) [1] [2] =
      { size1 := 1, size2 := 0, key2 := [], outside := true } := by
    rfl
  refine ⟨hrun, fun hdiff => ?_⟩
  rw [hrun] at hdiff
  exact Bool.noConfusion hdiff.inside

end LearnedIndexFramework.Benchmark
