import Mathlib.Data.List.Basic
import Mathlib.Order.Basic
import Mathlib.Order.Lattice
import Mathlib.Tactic.Common

/-! Lists that ascend by a key, and lookups in several of them, the newest first. -/

universe u v

namespace LearnedIndexFramework.Lib

variable {α : Type u} {K : Type v} [LinearOrder K] (key : α → K)

def KeyAscending (xs : List α) : Prop := xs.Pairwise (key · < key ·)

def rank (k : K) (xs : List α) : ℕ := xs.countP (key · < k)

def rankAbove (k : K) (xs : List α) : ℕ := xs.countP (key · ≤ k)

def hit (k : K) (xs : List α) : Option α := xs.find? (key · = k)

def hitFirst (k : K) (layers : List (List α)) : Option α := layers.findSome? (hit key k)

variable {key} {xs ys : List α} {x y : α} {k : K} {i : ℕ}

theorem rank_le_length : rank key k xs ≤ xs.length := List.countP_le_length

theorem rankAbove_le_length : rankAbove key k xs ≤ xs.length := List.countP_le_length

theorem rank_le_rankAbove : rank key k xs ≤ rankAbove key k xs := by
  refine List.countP_mono_left fun x _ hx => ?_
  simp only [decide_eq_true_eq] at hx ⊢
  exact hx.le

theorem keyAscending_cons :
    KeyAscending key (x :: xs) ↔ (∀ y ∈ xs, key x < key y) ∧ KeyAscending key xs :=
  List.pairwise_cons

theorem KeyAscending.tail (h : KeyAscending key (x :: xs)) : KeyAscending key xs :=
  (keyAscending_cons.mp h).2

theorem KeyAscending.sublist (h : KeyAscending key ys) (hsub : xs.Sublist ys) :
    KeyAscending key xs :=
  List.Pairwise.sublist hsub h

theorem KeyAscending.filter (h : KeyAscending key xs) (p : α → Bool) :
    KeyAscending key (xs.filter p) :=
  h.sublist List.filter_sublist

theorem KeyAscending.eq_of_key_eq (h : KeyAscending key xs) (hx : x ∈ xs) (hy : y ∈ xs)
    (hkey : key x = key y) : x = y := by
  induction xs with
  | nil => exact absurd hx List.not_mem_nil
  | cons z xs ih =>
    obtain ⟨hz, h⟩ := keyAscending_cons.mp h
    rcases List.mem_cons.mp hx with rfl | hx
    · rcases List.mem_cons.mp hy with rfl | hy
      · rfl
      · exact absurd hkey (hz y hy).ne
    · rcases List.mem_cons.mp hy with hyz | hy
      · exact absurd hkey (hyz ▸ (hz x hx).ne')
      · exact ih h hx hy

section Partition

variable (p : α → Bool)

theorem countP_partition (hp : xs.Pairwise fun x y => p y = true → p x = true)
    (hi : xs[i]? = some x) : p x = true ↔ i < xs.countP p := by
  induction xs generalizing i with
  | nil => simp at hi
  | cons z xs ih =>
    obtain ⟨hz, hxs⟩ := List.pairwise_cons.mp hp
    cases i with
    | zero =>
      obtain rfl : z = x := by simpa using hi
      rw [List.countP_cons]
      constructor
      · intro h
        rw [if_pos h]
        omega
      · intro h
        by_contra hpz
        rw [if_neg hpz, Nat.add_zero, List.countP_pos_iff] at h
        obtain ⟨y, hy, hpy⟩ := h
        exact hpz (hz y hy hpy)
    | succ i =>
      have hx : xs[i]? = some x := by simpa using hi
      rw [ih hxs hx, List.countP_cons]
      split
      · omega
      · next hpz =>
        have hnone : xs.countP p = 0 := by
          rw [List.countP_eq_zero]
          exact fun y hy hpy => hpz (hz y hy hpy)
        omega

end Partition

theorem KeyAscending.lt_iff (h : KeyAscending key xs) (hi : xs[i]? = some x) :
    key x < k ↔ i < rank key k xs := by
  rw [rank, ← countP_partition (fun x => decide (key x < k)) _ hi, decide_eq_true_eq]
  refine h.imp fun hxy hy => ?_
  rw [decide_eq_true_eq] at hy ⊢
  exact hxy.trans hy

theorem KeyAscending.le_iff (h : KeyAscending key xs) (hi : xs[i]? = some x) :
    key x ≤ k ↔ i < rankAbove key k xs := by
  rw [rankAbove, ← countP_partition (fun x => decide (key x ≤ k)) _ hi, decide_eq_true_eq]
  refine h.imp fun hxy hy => ?_
  rw [decide_eq_true_eq] at hy ⊢
  exact hxy.le.trans hy

theorem hit_eq_some (h : KeyAscending key xs) : hit key k xs = some x ↔ x ∈ xs ∧ key x = k := by
  constructor
  · intro hx
    exact ⟨List.mem_of_find?_eq_some hx, by simpa using List.find?_some hx⟩
  · rintro ⟨hx, hk⟩
    cases hhit : hit key k xs with
    | none =>
      rw [hit, List.find?_eq_none] at hhit
      simpa [hk] using hhit x hx
    | some y =>
      have hy := List.mem_of_find?_eq_some hhit
      have hyk : key y = k := by simpa using List.find?_some hhit
      rw [h.eq_of_key_eq hx hy (hk.trans hyk.symm)]

theorem hit_eq_none : hit key k xs = none ↔ ∀ x ∈ xs, key x ≠ k := by
  simp [hit, List.find?_eq_none]

theorem hit_of_mem (h : KeyAscending key xs) (hx : x ∈ xs) : hit key (key x) xs = some x :=
  (hit_eq_some h).mpr ⟨hx, rfl⟩

theorem KeyAscending.hit_eq (h : KeyAscending key xs) :
    hit key k xs = (xs[rank key k xs]?).filter (key · = k) := by
  cases hx : xs[rank key k xs]? with
  | none =>
    rw [Option.filter_none, hit_eq_none]
    intro y hy hk
    obtain ⟨i, hi⟩ := List.mem_iff_getElem?.mp hy
    have hge := mt (h.lt_iff (k := k) hi).mpr (by rw [hk]; exact lt_irrefl k)
    rw [List.getElem?_eq_none_iff] at hx
    have hlt := (List.getElem?_eq_some_iff.mp hi).1
    omega
  | some x =>
    by_cases hk : key x = k
    · rw [Option.filter_some, decide_eq_true hk, if_pos rfl]
      exact (hit_eq_some h).mpr ⟨List.mem_of_getElem? hx, hk⟩
    · rw [Option.filter_some, decide_eq_false hk, if_neg Bool.false_ne_true, hit_eq_none]
      intro y hy hyk
      obtain ⟨i, hi⟩ := List.mem_iff_getElem?.mp hy
      have hge : ¬ i < rank key k xs := mt (h.lt_iff hi).mpr (by rw [hyk]; exact lt_irrefl k)
      have hgt : k < key x :=
        lt_of_le_of_ne (not_lt.mp (mt (h.lt_iff hx).mp (lt_irrefl _))) (Ne.symm hk)
      have hne : i ≠ rank key k xs := by
        rintro rfl
        obtain rfl := Option.some.inj (hx.symm.trans hi)
        exact hk hyk
      have hlt : key x < key y := by
        obtain ⟨hi', rfl⟩ := List.getElem?_eq_some_iff.mp hi
        obtain ⟨hr, rfl⟩ := List.getElem?_eq_some_iff.mp hx
        exact List.pairwise_iff_getElem.mp h _ _ hr hi' (by omega)
      rw [hyk] at hlt
      exact absurd hlt hgt.not_gt

@[simp] theorem hit_nil : hit key k ([] : List α) = none := rfl

theorem hit_cons_self (x : α) (xs : List α) : hit key (key x) (x :: xs) = some x := by
  simp [hit]

theorem hit_cons_of_ne (h : key x ≠ k) : hit key k (x :: xs) = hit key k xs := by
  simp [hit, h]

theorem hit_eq_none_of_lt (h : ∀ x ∈ xs, k < key x) : hit key k xs = none :=
  hit_eq_none.mpr fun x hx => (h x hx).ne'

theorem hit_append (xs ys : List α) :
    hit key k (xs ++ ys) = (hit key k xs).or (hit key k ys) := by
  rw [hit, List.find?_append]
  rfl

theorem KeyAscending.lt_of_mem_take (h : KeyAscending key xs)
    (hx : x ∈ xs.take (rank key k xs)) : key x < k := by
  obtain ⟨i, hi⟩ := List.mem_iff_getElem?.mp hx
  have hi' := (List.getElem?_eq_some_iff.mp hi).1
  rw [List.length_take] at hi'
  rw [List.getElem?_take_of_lt (by omega)] at hi
  exact (h.lt_iff hi).mpr (by omega)

theorem KeyAscending.le_of_mem_drop (h : KeyAscending key xs)
    (hx : x ∈ xs.drop (rank key k xs)) : k ≤ key x := by
  obtain ⟨i, hi⟩ := List.mem_iff_getElem?.mp hx
  rw [List.getElem?_drop] at hi
  exact not_lt.mp (mt (h.lt_iff hi).mp (by omega))

theorem KeyAscending.mem_slice {k' : K} (h : KeyAscending key xs) :
    x ∈ (xs.take (rankAbove key k' xs)).drop (rank key k xs) ↔
      x ∈ xs ∧ k ≤ key x ∧ key x ≤ k' := by
  constructor
  · intro hx
    obtain ⟨i, hi⟩ := List.mem_iff_getElem?.mp hx
    rw [List.getElem?_drop] at hi
    have hlt := (List.getElem?_eq_some_iff.mp hi).1
    rw [List.length_take] at hlt
    rw [List.getElem?_take_of_lt (by omega)] at hi
    exact ⟨List.mem_of_getElem? hi, not_lt.mp (mt (h.lt_iff hi).mp (by omega)),
      (h.le_iff hi).mpr (by omega)⟩
  · rintro ⟨hx, hle, hle'⟩
    obtain ⟨i, hi⟩ := List.mem_iff_getElem?.mp hx
    have hge : ¬ i < rank key k xs := mt (h.lt_iff hi).mpr (not_lt.mpr hle)
    have hlt := (h.le_iff hi).mp hle'
    refine List.mem_iff_getElem?.mpr ⟨i - rank key k xs, ?_⟩
    rw [List.getElem?_drop, show rank key k xs + (i - rank key k xs) = i by omega,
      List.getElem?_take_of_lt hlt]
    exact hi

theorem KeyAscending.drop_rankAbove (h : KeyAscending key xs) :
    xs.drop (rankAbove key k xs) = xs.filter (k < key ·) := by
  induction xs with
  | nil => rfl
  | cons x xs ih =>
    obtain ⟨hx, hxs⟩ := keyAscending_cons.mp h
    by_cases hk : key x ≤ k
    · rw [List.filter_cons_of_neg (by simpa using hk), rankAbove,
        List.countP_cons_of_pos (by simpa using hk), List.drop_succ_cons]
      exact ih hxs
    · have hall : ∀ y ∈ x :: xs, k < key y := by
        intro y hy
        rcases List.mem_cons.mp hy with rfl | hy
        · exact not_le.mp hk
        · exact (not_le.mp hk).trans (hx y hy)
      have hzero : rankAbove key k (x :: xs) = 0 := by
        rw [rankAbove, List.countP_eq_zero]
        intro y hy
        simpa using hall y hy
      rw [hzero, List.drop_zero, List.filter_eq_self.mpr fun y hy => by simpa using hall y hy]

theorem keyAscending_between (hl : ∀ z ∈ xs, key z < key x) (hr : ∀ z ∈ ys, key x < key z)
    (hxs : KeyAscending key xs) (hys : KeyAscending key ys) :
    KeyAscending key (xs ++ x :: ys) := by
  refine List.pairwise_append.mpr ⟨hxs, keyAscending_cons.mpr ⟨hr, hys⟩, fun a ha b hb => ?_⟩
  rcases List.mem_cons.mp hb with rfl | hb
  · exact hl a ha
  · exact (hl a ha).trans (hr b hb)

theorem hit_between (hl : ∀ z ∈ xs, key z < key x) : hit key (key x) (xs ++ x :: ys) = some x := by
  rw [hit_append, hit_eq_none.mpr fun z hz => (hl z hz).ne, Option.none_or, hit_cons_self]

theorem KeyAscending.insert (h : KeyAscending key xs) (hnew : hit key (key x) xs = none) :
    KeyAscending key (xs.take (rank key (key x) xs) ++ x :: xs.drop (rank key (key x) xs)) ∧
      ∀ k, hit key k (xs.take (rank key (key x) xs) ++ x :: xs.drop (rank key (key x) xs)) =
        if k = key x then some x else hit key k xs := by
  have hl : ∀ z ∈ xs.take (rank key (key x) xs), key z < key x := fun z hz => h.lt_of_mem_take hz
  have hr : ∀ z ∈ xs.drop (rank key (key x) xs), key x < key z := fun z hz =>
    lt_of_le_of_ne (h.le_of_mem_drop hz) (hit_eq_none.mp hnew z (List.mem_of_mem_drop hz)).symm
  refine ⟨keyAscending_between hl hr (h.sublist (List.take_sublist _ _))
    (h.sublist (List.drop_sublist _ _)), fun k => ?_⟩
  split
  · next hk =>
    subst hk
    exact hit_between hl
  · next hk =>
    rw [hit_append, hit_cons_of_ne (Ne.symm hk), ← hit_append, List.take_append_drop]

theorem KeyAscending.replace (h : KeyAscending key xs) (hy : xs[rank key (key x) xs]? = some y)
    (hkey : key y = key x) :
    KeyAscending key (xs.set (rank key (key x) xs) x) ∧
      ∀ k, hit key k (xs.set (rank key (key x) xs) x) =
        if k = key x then some x else hit key k xs := by
  obtain ⟨hlt, hget⟩ := List.getElem?_eq_some_iff.mp hy
  have hsplit : xs = xs.take (rank key (key x) xs) ++ y :: xs.drop (rank key (key x) xs + 1) := by
    rw [← hget, ← List.drop_eq_getElem_cons hlt, List.take_append_drop]
  have hl : ∀ z ∈ xs.take (rank key (key x) xs), key z < key x := fun z hz => h.lt_of_mem_take hz
  have hr : ∀ z ∈ xs.drop (rank key (key x) xs + 1), key x < key z := by
    have h' := h
    rw [hsplit] at h'
    intro z hz
    exact hkey.symm.trans_lt ((keyAscending_cons.mp (List.pairwise_append.mp h').2.1).1 z hz)
  rw [List.set_eq_take_append_cons_drop, if_pos hlt]
  refine ⟨keyAscending_between hl hr (h.sublist (List.take_sublist _ _))
    (h.sublist (List.drop_sublist _ _)), fun k => ?_⟩
  split
  · next hk =>
    subst hk
    exact hit_between hl
  · next hk =>
    rw [hit_append, hit_cons_of_ne (Ne.symm hk)]
    conv_rhs => rw [hsplit, hit_append, hit_cons_of_ne (hkey ▸ Ne.symm hk)]

theorem length_flatten_set {layers : List (List α)} {old : List α} (new : List α)
    (hget : layers[i]? = some old) :
    (layers.set i new).flatten.length + old.length = layers.flatten.length + new.length := by
  induction layers generalizing i with
  | nil => cases hget
  | cons layer layers ih =>
    cases i with
    | zero =>
      obtain rfl := Option.some.inj hget
      rw [List.set_cons_zero, List.flatten_cons, List.flatten_cons, List.length_append,
        List.length_append]
      omega
    | succ i =>
      have := ih (List.getElem?_cons_succ ▸ hget)
      rw [List.set_cons_succ, List.flatten_cons, List.flatten_cons, List.length_append,
        List.length_append]
      omega

@[simp] theorem hitFirst_nil : hitFirst key k ([] : List (List α)) = none := rfl

theorem hitFirst_cons (xs : List α) (layers : List (List α)) :
    hitFirst key k (xs :: layers) = (hit key k xs).or (hitFirst key k layers) := by
  rw [hitFirst, hitFirst, List.findSome?_cons]
  cases hit key k xs <;> rfl

theorem hitFirst_append (layers layers' : List (List α)) :
    hitFirst key k (layers ++ layers') = (hitFirst key k layers).or (hitFirst key k layers') := by
  induction layers with
  | nil => rw [List.nil_append, hitFirst_nil, Option.none_or]
  | cons xs layers ih => rw [List.cons_append, hitFirst_cons, hitFirst_cons, ih, Option.or_assoc]

theorem hitFirst_eq_none_of_nil {layers : List (List α)} (h : ∀ xs ∈ layers, xs = []) :
    hitFirst key k layers = none := by
  rw [hitFirst, List.findSome?_eq_none_iff]
  intro xs hxs
  rw [h xs hxs, hit_nil]

theorem hitFirst_replicate_nil (n : ℕ) (layers : List (List α)) :
    hitFirst key k (List.replicate n [] ++ layers) = hitFirst key k layers := by
  rw [hitFirst_append, hitFirst_eq_none_of_nil fun xs hxs => List.eq_of_mem_replicate hxs,
    Option.none_or]

end LearnedIndexFramework.Lib
