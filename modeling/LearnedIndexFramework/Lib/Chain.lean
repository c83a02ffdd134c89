import Mathlib.Data.List.Nodup
import Mathlib.Tactic.Common

/-! Doubly linked lists, as maps from an element to the next and to the one before. -/

namespace LearnedIndexFramework.Lib

variable {α : Type}

/-- A segment of a doubly linked list, between what is before it and what is behind it. -/
def Linked (next prev : α → Option α) : Option α → List α → Option α → Prop
  | _, [], _ => True
  | p, x :: xs, n => prev x = p ∧ next x = xs.head?.or n ∧ Linked next prev (some x) xs n

variable {next prev next' prev' : α → Option α} {p q n m : Option α} {xs ys ns : List α} {a : α}

@[simp] theorem linked_nil : Linked next prev p [] n := trivial

theorem linked_cons :
    Linked next prev p (a :: xs) n ↔
      prev a = p ∧ next a = xs.head?.or n ∧ Linked next prev (some a) xs n := Iff.rfl

theorem linked_append :
    Linked next prev p (xs ++ ys) n ↔
      Linked next prev p xs (ys.head?.or n) ∧ Linked next prev (xs.getLast?.or p) ys n := by
  induction xs generalizing p with
  | nil => simp
  | cons x xs ih =>
    rw [List.cons_append, linked_cons, linked_cons, ih, List.head?_append, Option.or_assoc,
      List.getLast?_cons]
    cases hlast : xs.getLast? with
    | none => simp [and_assoc]
    | some y => simp [and_assoc]

theorem Linked.congr (h : Linked next prev p xs n) (hnext : ∀ x ∈ xs, next' x = next x)
    (hprev : ∀ x ∈ xs, prev' x = prev x) : Linked next' prev' p xs n := by
  induction xs generalizing p with
  | nil => trivial
  | cons x xs ih =>
    rw [List.forall_mem_cons] at hnext hprev
    exact ⟨hprev.1.trans h.1, hnext.1.trans h.2.1, ih h.2.2 hnext.2 hprev.2⟩

section

variable [DecidableEq α]

theorem Linked.setNext (h : Linked next prev p xs n) (hnodup : xs.Nodup)
    (hprev : ∀ x ∈ xs, prev' x = prev x)
    (hnext : ∀ x ∈ xs, next' x = if xs.getLast? = some x then m else next x) :
    Linked next' prev' p xs m := by
  induction xs generalizing p with
  | nil => trivial
  | cons x xs ih =>
    rw [List.forall_mem_cons] at hnext hprev
    rw [List.nodup_cons] at hnodup
    refine ⟨hprev.1.trans h.1, ?_, ih h.2.2 hnodup.2 hprev.2 fun y hy => ?_⟩
    · rw [hnext.1, h.2.1]
      cases xs with
      | nil => simp
      | cons y ys =>
        have hne : (x :: y :: ys).getLast? ≠ some x := by
          rw [List.getLast?_cons_cons]
          intro hlast
          exact hnodup.1 (List.mem_of_getLast? hlast)
        rw [if_neg hne]
        rfl
    · have hlast : (x :: xs).getLast? = xs.getLast? := by
        cases xs with
        | nil => cases hy
        | cons z zs => exact List.getLast?_cons_cons
      rw [hnext.2 y hy, hlast]

theorem Linked.setPrev (h : Linked next prev p xs n) (hnodup : xs.Nodup)
    (hnext : ∀ x ∈ xs, next' x = next x)
    (hprev : ∀ x ∈ xs, prev' x = if xs.head? = some x then q else prev x) :
    Linked next' prev' q xs n := by
  cases xs with
  | nil => trivial
  | cons x xs =>
    rw [List.forall_mem_cons] at hnext hprev
    rw [List.nodup_cons] at hnodup
    refine ⟨?_, hnext.1.trans h.2.1, h.2.2.congr hnext.2 fun y hy => ?_⟩
    · rw [hprev.1, List.head?_cons, if_pos rfl]
    · have hne : x ≠ y := fun heq => hnodup.1 (heq ▸ hy)
      rw [hprev.2 y hy, List.head?_cons, if_neg (Option.some_inj.not.mpr hne)]

theorem Linked.join {l r : α} (hx : Linked next prev p xs n) (hy : Linked next prev q ys m)
    (hnodup : (xs ++ ys).Nodup) (hlast : xs.getLast? = some l) (hhead : ys.head? = some r)
    (hnext : ∀ x, next' x = if x = l then some r else next x)
    (hprev : ∀ x, prev' x = if x = r then some l else prev x) :
    Linked next' prev' p (xs ++ ys) m := by
  obtain ⟨hnodupx, hnodupy, hdisjoint⟩ := List.nodup_append.mp hnodup
  have hl : l ∈ xs := List.mem_of_getLast? hlast
  have hr : r ∈ ys := List.mem_of_mem_head? hhead
  rw [linked_append, hlast, hhead, Option.some_or, Option.some_or]
  refine ⟨hx.setNext hnodupx (fun x hx => ?_) fun x _ => ?_,
    hy.setPrev hnodupy (fun y hy => ?_) fun y _ => ?_⟩
  · rw [hprev x, if_neg (hdisjoint x hx r hr)]
  · rw [hnext x, hlast]
    simp only [Option.some_inj, eq_comm]
  · rw [hnext y, if_neg (hdisjoint l hl y hy).symm]
  · rw [hprev y, hhead]
    simp only [Option.some_inj, eq_comm]

theorem Linked.replace (h : Linked next prev none (xs ++ a :: ys) none)
    (hnodup : (xs ++ a :: ys).Nodup) (hns : ns ≠ [])
    (hnew : Linked next' prev' xs.getLast? ns ys.head?)
    (hprevx : ∀ x ∈ xs, prev' x = prev x)
    (hnextx : ∀ x ∈ xs, next' x = if xs.getLast? = some x then ns.head? else next x)
    (hnexty : ∀ y ∈ ys, next' y = next y)
    (hprevy : ∀ y ∈ ys, prev' y = if ys.head? = some y then ns.getLast? else prev y) :
    Linked next' prev' none (xs ++ (ns ++ ys)) none := by
  obtain ⟨hx, -, -, hy⟩ := linked_append.mp h
  obtain ⟨hnodupx, hnodupy, -⟩ := List.nodup_append.mp hnodup
  obtain ⟨b, bs, rfl⟩ := List.exists_cons_of_ne_nil hns
  rw [linked_append, linked_append, Option.or_none, Option.or_none]
  refine ⟨?_, by rwa [Option.or_none], ?_⟩
  · simpa using hx.setNext (m := some b) hnodupx hprevx hnextx
  · rw [List.getLast?_cons, Option.some_or]
    rw [List.getLast?_cons] at hprevy
    exact hy.setPrev (List.nodup_cons.mp hnodupy).2 hnexty hprevy

theorem Linked.splice {l r : α} (h : Linked next prev none (xs ++ a :: ys) none)
    (hnodup : (xs ++ a :: ys).Nodup) (hns : Linked next prev p ns n) (hnodup' : ns.Nodup)
    (hhead : ns.head? = some l) (hlast : ns.getLast? = some r)
    (hdisjoint : ∀ x ∈ ns, x ∉ xs ++ a :: ys) (hp : xs = [] → p = none) (hn : ys = [] → n = none)
    (hnext : ∀ x, next' x =
      if ys ≠ [] ∧ x = r then ys.head? else if xs.getLast? = some x then some l else next x)
    (hprev : ∀ x, prev' x =
      if ys.head? = some x then some r else if xs ≠ [] ∧ x = l then xs.getLast? else prev x) :
    Linked next' prev' none (xs ++ (ns ++ ys)) none := by
  have hl : l ∈ ns := List.mem_of_mem_head? hhead
  have hr : r ∈ ns := List.mem_of_getLast? hlast
  have hx : ∀ x ∈ ns, xs.getLast? ≠ some x := fun x hx heq =>
    hdisjoint x hx (List.mem_append_left _ (List.mem_of_getLast? heq))
  have hy : ∀ x ∈ ns, ys.head? ≠ some x := fun x hx heq =>
    hdisjoint x hx (List.mem_append_right _ (List.mem_cons_of_mem _ (List.mem_of_mem_head? heq)))
  have hxy : ∀ x ∈ xs, x ∉ ys := fun x hx hy =>
    (List.nodup_append.mp hnodup).2.2 x hx x (List.mem_cons_of_mem _ hy) rfl
  have hnew : Linked next' prev' xs.getLast? ns ys.head? := by
    have hfirst : Linked next prev' xs.getLast? ns n := by
      rcases List.eq_nil_or_concat xs with rfl | ⟨xs, x, rfl⟩
      · rw [hp rfl] at hns
        refine hns.congr (fun _ _ => rfl) fun x hx => ?_
        rw [hprev x, if_neg (hy x hx), if_neg (by simp)]
      · refine hns.setPrev hnodup' (fun _ _ => rfl) fun x hx => ?_
        rw [hprev x, if_neg (hy x hx), hhead]
        by_cases hxl : x = l
        · rw [if_pos ⟨by simp, hxl⟩, if_pos (congrArg some hxl.symm)]
        · rw [if_neg fun hand => hxl hand.2, if_neg fun heq => hxl (Option.some_inj.mp heq).symm]
    cases ys with
    | nil =>
      rw [hn rfl] at hfirst
      refine hfirst.congr (fun x hxns => ?_) fun _ _ => rfl
      rw [hnext x, if_neg (by simp), if_neg (hx x hxns)]
    | cons y ys =>
      refine hfirst.setNext hnodup' (fun _ _ => rfl) fun x hxns => ?_
      rw [hnext x, if_neg (hx x hxns), hlast]
      by_cases hxr : x = r
      · rw [if_pos ⟨by simp, hxr⟩, if_pos (congrArg some hxr.symm)]
      · rw [if_neg fun hand => hxr hand.2, if_neg fun heq => hxr (Option.some_inj.mp heq).symm]
  refine h.replace hnodup (List.ne_nil_of_mem hl) hnew (fun x hx => ?_) (fun x hx => ?_)
    (fun y hy => ?_) fun y hy => ?_
  · have hxl : x ≠ l := by
      rintro rfl
      exact hdisjoint x hl (List.mem_append_left _ hx)
    have hxh : ys.head? ≠ some x := fun heq => hxy x hx (List.mem_of_mem_head? heq)
    rw [hprev x, if_neg hxh, if_neg (by simp [hxl])]
  · have hxr : x ≠ r := by
      rintro rfl
      exact hdisjoint x hr (List.mem_append_left _ hx)
    rw [hnext x, if_neg (by simp [hxr]), hhead]
  · have hyr : y ≠ r := by
      rintro rfl
      exact hdisjoint y hr (List.mem_append_right _ (List.mem_cons_of_mem _ hy))
    have hyl : xs.getLast? ≠ some y := fun heq => hxy y (List.mem_of_getLast? heq) hy
    rw [hnext y, if_neg (by simp [hyr]), if_neg hyl]
  · have hyl : y ≠ l := by
      rintro rfl
      exact hdisjoint y hl (List.mem_append_right _ (List.mem_cons_of_mem _ hy))
    rw [hprev y, hlast]
    simp [hyl]

end

theorem Linked.next_eq (h : Linked next prev p (xs ++ a :: ys) n) : next a = ys.head?.or n :=
  (linked_append.mp h).2.2.1

theorem Linked.prev_eq (h : Linked next prev p (xs ++ a :: ys) n) : prev a = xs.getLast?.or p :=
  (linked_append.mp h).2.1

theorem linked_range {next prev : ℕ → Option ℕ} {p q : Option ℕ} {first n : ℕ}
    (hnext : ∀ i, first ≤ i → i < first + n →
      next i = if i + 1 < first + n then some (i + 1) else q)
    (hprev : ∀ i, first ≤ i → i < first + n → prev i = if first < i then some (i - 1) else p) :
    Linked next prev p (List.range' first n) q := by
  induction n generalizing first p with
  | zero => trivial
  | succ n ih =>
    rw [List.range'_succ]
    refine ⟨?_, ?_, ih (fun i hi hlt => ?_) fun i hi hlt => ?_⟩
    · rw [hprev first (Nat.le_refl _) (by omega), if_neg (Nat.lt_irrefl _)]
    · rw [hnext first (Nat.le_refl _) (by omega)]
      cases n with
      | zero => simp
      | succ n => simp [List.range'_succ]
    · rw [hnext i (by omega) (by omega)]
      congr 1
      simp only [eq_iff_iff]
      omega
    · rw [hprev i (by omega) (by omega), if_pos (by omega)]
      split
      · rfl
      · congr 1
        omega

end LearnedIndexFramework.Lib
