import LearnedIndexFramework.Pgm.Model

/-! Searching within a level and merging two of them. -/

namespace LearnedIndexFramework.Pgm

open Lib

variable {K V : Type}

section Cancel

variable [DecidableEq V] [Top V] {skip : Bool}

def cancel (skip : Bool) (newer older : Option (Item K V)) : Option (Item K V) :=
  if skip && newer.any Item.deleted && older.isSome then none else newer.or older

theorem cancel_none_left (older : Option (Item K V)) : cancel skip none older = older := by
  simp [cancel]

theorem cancel_none_right (newer : Option (Item K V)) : cancel skip newer none = newer := by
  simp [cancel]

end Cancel

variable [LinearOrder K]

abbrev Ascending (xs : List (Item K V)) : Prop := KeyAscending Item.first xs

section Search

variable {xs : List (Item K V)} {x : K}

theorem lowerBoundLoop_spec (h : Ascending xs) {fuel first n : ℕ} (hpos : 0 < n)
    (hfuel : n ≤ fuel) (hlen : first + n ≤ xs.length) (hle : first ≤ rank Item.first x xs)
    (hge : rank Item.first x xs ≤ first + n) :
    ∃ pos, lowerBoundLoop xs x fuel first n = .ok pos ∧ pos < xs.length ∧
      pos ≤ rank Item.first x xs ∧ rank Item.first x xs ≤ pos + 1 := by
  induction fuel generalizing first n with
  | zero => omega
  | succ fuel ih =>
    rw [lowerBoundLoop]
    split
    case isFalse hn => exact ⟨first, rfl, by omega, hle, by omega⟩
    case isTrue hn =>
      have hmid : first + n / 2 < xs.length := by omega
      have hiff := h.lt_iff (k := x) (List.getElem?_eq_getElem hmid)
      simp only [List.getElem?_eq_getElem hmid, orUndefined]
      change ∃ pos, lowerBoundLoop xs x fuel _ _ = .ok pos ∧ _
      split
      · next hlt =>
        have hrank := hiff.mp hlt
        exact ih (by omega) (by omega) (by omega) (by omega) (by omega)
      · next hlt =>
        have hrank := mt hiff.mpr hlt
        exact ih (by omega) (by omega) (by omega) hle (by omega)

theorem lowerBoundBl_eq (h : Ascending xs) {first last : ℕ} (hle : first ≤ rank Item.first x xs)
    (hge : rank Item.first x xs ≤ last) (hlen : last ≤ xs.length) :
    lowerBoundBl xs first last x = .ok (rank Item.first x xs) := by
  rw [lowerBoundBl]
  split
  case isTrue heq =>
    congr 1
    omega
  case isFalse hne =>
    obtain ⟨pos, hloop, hpos, hlo, hhi⟩ := lowerBoundLoop_spec h
      (n := last - first) (by omega) le_rfl (by omega) hle (by omega)
    have hiff := h.lt_iff (k := x) (List.getElem?_eq_getElem hpos)
    rw [hloop]
    simp only [bind, Except.bind, List.getElem?_eq_getElem hpos, orUndefined, pure, Except.pure]
    congr 1
    split
    · next hlt =>
      have hrank := hiff.mp hlt
      omega
    · next hlt =>
      have hrank := mt hiff.mpr hlt
      omega

theorem lowerBoundBl_all (h : Ascending xs) (x : K) :
    lowerBoundBl xs 0 xs.length x = .ok (rank Item.first x xs) :=
  lowerBoundBl_eq h (Nat.zero_le _) rank_le_length le_rfl

theorem upperBound_eq (h : Ascending xs) {first last : ℕ}
    (hle : first ≤ rankAbove Item.first x xs) (hge : rankAbove Item.first x xs ≤ last)
    (hlen : last ≤ xs.length) : upperBound xs first last x = rankAbove Item.first x xs := by
  set r := rankAbove Item.first x xs with hr
  have hget : ∀ i, i < last - first →
      ((xs.take last).drop first)[i]? = xs[first + i]? := by
    intro i hi
    rw [List.getElem?_drop, List.getElem?_take_of_lt (by omega)]
  have hlength : ((xs.take last).drop first).length = last - first := by
    rw [List.length_drop, List.length_take, min_eq_left hlen]
  have habove : ∀ i, i < last - first → ∀ item, ((xs.take last).drop first)[i]? = some item →
      (x < item.first ↔ r ≤ first + i) := by
    intro i hi item hitem
    rw [hget i hi] at hitem
    rw [← not_le, h.le_iff hitem, ← hr, not_lt]
  rw [upperBound]
  rcases Nat.lt_or_ge (r - first) (last - first) with hlt | hge'
  · have hidx : ((xs.take last).drop first).findIdx (fun item => decide (x < item.first)) =
        r - first := by
      refine (List.findIdx_eq (by omega)).mpr ⟨?_, fun j hj => ?_⟩
      · rw [decide_eq_true_eq, habove _ hlt _ (List.getElem?_eq_getElem _)]
        omega
      · rw [decide_eq_false_iff_not, habove j (by omega) _ (List.getElem?_eq_getElem (by omega))]
        omega
    rw [hidx]
    omega
  · have hidx : ((xs.take last).drop first).findIdx (fun item => decide (x < item.first)) =
        last - first := by
      rw [← hlength]
      refine List.findIdx_eq_length_of_false fun item hitem => ?_
      obtain ⟨i, hi⟩ := List.mem_iff_getElem?.mp hitem
      have hi' := (List.getElem?_eq_some_iff.mp hi).1
      rw [decide_eq_false_iff_not, habove i (by omega) _ hi]
      omega
    rw [hidx]
    omega

end Search

section Merge

variable [DecidableEq V] [Top V] {xs ys : List (Item K V)} {skip : Bool} {k : K}

theorem mem_of_mem_merge {item : Item K V} (h : item ∈ merge skip xs ys) :
    item ∈ xs ∨ item ∈ ys := by
  fun_induction merge skip xs ys with
  | case1 ys => exact .inr h
  | case2 xs hne => exact .inl h
  | case3 x xs y ys hlt ih =>
    rcases List.mem_cons.mp h with rfl | h
    · exact .inr List.mem_cons_self
    · exact (ih h).imp_right (List.mem_cons_of_mem y)
  | case4 x xs y ys hnlt hlt ih =>
    rcases List.mem_cons.mp h with rfl | h
    · exact .inl List.mem_cons_self
    · exact (ih h).imp_left (List.mem_cons_of_mem x)
  | case5 x xs y ys hnlt hnlt' hskip ih =>
    exact (ih h).imp (List.mem_cons_of_mem x) (List.mem_cons_of_mem y)
  | case6 x xs y ys hnlt hnlt' hskip ih =>
    rcases List.mem_cons.mp h with rfl | h
    · exact .inl List.mem_cons_self
    · exact (ih h).imp (List.mem_cons_of_mem x) (List.mem_cons_of_mem y)

theorem length_merge_le : (merge skip xs ys).length ≤ xs.length + ys.length := by
  fun_induction merge skip xs ys with
  | case1 ys => simp
  | case2 xs hne => simp
  | case3 x xs y ys hlt ih =>
    simp only [List.length_cons] at ih ⊢
    omega
  | case4 x xs y ys hnlt hlt ih =>
    simp only [List.length_cons] at ih ⊢
    omega
  | case5 x xs y ys hnlt hnlt' hskip ih =>
    simp only [List.length_cons]
    omega
  | case6 x xs y ys hnlt hnlt' hskip ih =>
    simp only [List.length_cons]
    omega

theorem ascending_merge (hx : Ascending xs) (hy : Ascending ys) :
    Ascending (merge skip xs ys) := by
  fun_induction merge skip xs ys with
  | case1 ys => exact hy
  | case2 xs hne => exact hx
  | case3 x xs y ys hlt ih =>
    obtain ⟨hy', hys⟩ := keyAscending_cons.mp hy
    refine keyAscending_cons.mpr ⟨fun z hz => ?_, ih hx hys⟩
    rcases mem_of_mem_merge hz with hz | hz
    · rcases List.mem_cons.mp hz with rfl | hz
      · exact hlt
      · exact hlt.trans ((keyAscending_cons.mp hx).1 z hz)
    · exact hy' z hz
  | case4 x xs y ys hnlt hlt ih =>
    obtain ⟨hx', hxs⟩ := keyAscending_cons.mp hx
    refine keyAscending_cons.mpr ⟨fun z hz => ?_, ih hxs hy⟩
    rcases mem_of_mem_merge hz with hz | hz
    · exact hx' z hz
    · rcases List.mem_cons.mp hz with rfl | hz
      · exact hlt
      · exact hlt.trans ((keyAscending_cons.mp hy).1 z hz)
  | case5 x xs y ys hnlt hnlt' hskip ih => exact ih hx.tail hy.tail
  | case6 x xs y ys hnlt hnlt' hskip ih =>
    have heq : x.first = y.first := le_antisymm (not_lt.mp hnlt) (not_lt.mp hnlt')
    obtain ⟨hx', hxs⟩ := keyAscending_cons.mp hx
    obtain ⟨hy', hys⟩ := keyAscending_cons.mp hy
    refine keyAscending_cons.mpr ⟨fun z hz => ?_, ih hxs hys⟩
    rcases mem_of_mem_merge hz with hz | hz
    · exact hx' z hz
    · exact heq ▸ hy' z hz

theorem hit_merge (hx : Ascending xs) (hy : Ascending ys) :
    hit Item.first k (merge skip xs ys) =
      cancel skip (hit Item.first k xs) (hit Item.first k ys) := by
  fun_induction merge skip xs ys with
  | case1 ys => rw [hit_nil, cancel_none_left]
  | case2 xs hne => rw [hit_nil, cancel_none_right]
  | case3 x xs y ys hlt ih =>
    by_cases hk : y.first = k
    · subst hk
      have hnone : hit Item.first y.first (x :: xs) = none :=
        hit_eq_none_of_lt fun z hz => by
          rcases List.mem_cons.mp hz with rfl | hz
          · exact hlt
          · exact hlt.trans ((keyAscending_cons.mp hx).1 z hz)
      rw [hit_cons_self, hit_cons_self, hnone, cancel_none_left]
    · rw [hit_cons_of_ne hk, hit_cons_of_ne hk]
      exact ih hx hy.tail
  | case4 x xs y ys hnlt hlt ih =>
    by_cases hk : x.first = k
    · subst hk
      have hnone : hit Item.first x.first (y :: ys) = none :=
        hit_eq_none_of_lt fun z hz => by
          rcases List.mem_cons.mp hz with rfl | hz
          · exact hlt
          · exact hlt.trans ((keyAscending_cons.mp hy).1 z hz)
      rw [hit_cons_self, hit_cons_self, hnone, cancel_none_right]
    · rw [hit_cons_of_ne hk, hit_cons_of_ne hk]
      exact ih hx.tail hy
  | case5 x xs y ys hnlt hnlt' hskip ih =>
    have heq : x.first = y.first := le_antisymm (not_lt.mp hnlt) (not_lt.mp hnlt')
    obtain ⟨hx', hxs⟩ := keyAscending_cons.mp hx
    obtain ⟨hy', hys⟩ := keyAscending_cons.mp hy
    rw [ih hxs hys]
    by_cases hk : x.first = k
    · subst hk
      rw [Bool.and_eq_true] at hskip
      rw [hit_eq_none_of_lt hx', hit_eq_none_of_lt (by rw [heq]; exact hy'), hit_cons_self,
        heq, hit_cons_self]
      simp [cancel, hskip.1, hskip.2]
    · rw [hit_cons_of_ne hk, hit_cons_of_ne (heq ▸ hk)]
  | case6 x xs y ys hnlt hnlt' hskip ih =>
    have heq : x.first = y.first := le_antisymm (not_lt.mp hnlt) (not_lt.mp hnlt')
    by_cases hk : x.first = k
    · subst hk
      rw [hit_cons_self, hit_cons_self, heq, hit_cons_self, cancel, Option.any_some,
        Option.isSome_some, Bool.and_true, if_neg hskip, Option.some_or]
    · rw [hit_cons_of_ne hk, hit_cons_of_ne hk, hit_cons_of_ne (heq ▸ hk)]
      exact ih hx.tail hy.tail

end Merge

end LearnedIndexFramework.Pgm
