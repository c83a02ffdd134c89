import Mathlib.Data.List.Basic
import Mathlib.Order.Bounds.Basic

/-! Cutting a list into consecutive runs that all satisfy a predicate.  For a predicate
that passes to the two parts of a split run, closing a run only when the next element does
not fit gives the least number of runs. -/

universe u

namespace LearnedIndexFramework.Lib

variable {α : Type u}

/-- `runs` is a cut of `xs` into consecutive non-empty runs satisfying `P`. -/
structure IsCut (P : List α → Prop) (xs : List α) (runs : List (List α)) : Prop where
  flatten : runs.flatten = xs
  ne_nil : ∀ r ∈ runs, r ≠ []
  fits : ∀ r ∈ runs, P r

def cutSizes (P : List α → Prop) (xs : List α) : Set ℕ :=
  {m | ∃ runs, IsCut P xs runs ∧ runs.length = m}

open Classical in
noncomputable def greedyBreaks (P : List α → Prop) : List α → List α → ℕ
  | _, [] => 0
  | cur, x :: xs =>
    if P (cur ++ [x]) then greedyBreaks P (cur ++ [x]) xs else greedyBreaks P [x] xs + 1

structure Hereditary (P : List α → Prop) : Prop where
  left : ∀ s t, P (s ++ t) → P s
  right : ∀ s t, P (s ++ t) → P t

section

variable {P : List α → Prop}

theorem Hereditary.map (hP : Hereditary P) {β : Type*} (f : β → α) :
    Hereditary fun r => P (r.map f) where
  left s t h := hP.left _ (t.map f) (by simpa using h)
  right s t h := hP.right (s.map f) _ (by simpa using h)

theorem greedyBreaks_of_fits {cur xs : List α} {x : α} (h : P (cur ++ [x])) :
    greedyBreaks P cur (x :: xs) = greedyBreaks P (cur ++ [x]) xs := if_pos h

theorem greedyBreaks_of_not_fits {cur xs : List α} {x : α} (h : ¬ P (cur ++ [x])) :
    greedyBreaks P cur (x :: xs) = greedyBreaks P [x] xs + 1 := if_neg h

theorem greedyBreaks_append_left (hP : Hereditary P) (t cur xs : List α) :
    greedyBreaks P cur xs ≤ greedyBreaks P (t ++ cur) xs ∧
      greedyBreaks P (t ++ cur) xs ≤ greedyBreaks P cur xs + 1 := by
  induction xs generalizing t cur with
  | nil => simp [greedyBreaks]
  | cons x xs ih =>
    by_cases hlong : P (t ++ cur ++ [x])
    · have hshort : P (cur ++ [x]) := hP.right t _ (by simpa using hlong)
      rw [greedyBreaks_of_fits hlong, greedyBreaks_of_fits hshort, List.append_assoc]
      exact ih t (cur ++ [x])
    · rw [greedyBreaks_of_not_fits hlong]
      have hx := ih cur [x]
      by_cases hshort : P (cur ++ [x])
      · rw [greedyBreaks_of_fits hshort]
        omega
      · rw [greedyBreaks_of_not_fits hshort]
        omega

theorem greedyBreaks_map {β : Type*} (f : β → α) (cur xs : List β) :
    greedyBreaks P (cur.map f) (xs.map f) = greedyBreaks (fun r => P (r.map f)) cur xs := by
  induction xs generalizing cur with
  | nil => rfl
  | cons x xs ih =>
    have hrun : cur.map f ++ [f x] = (cur ++ [x]).map f := by simp
    by_cases h : P ((cur ++ [x]).map f)
    · rw [List.map_cons, greedyBreaks_of_fits (by rwa [hrun]), greedyBreaks_of_fits h, hrun, ih]
    · rw [List.map_cons, greedyBreaks_of_not_fits (by rwa [hrun]), greedyBreaks_of_not_fits h]
      exact congrArg (· + 1) (ih [x])

theorem greedyBreaks_append_run (hP : Hereditary P) (cur r xs : List α) (h : P (cur ++ r)) :
    greedyBreaks P cur (r ++ xs) = greedyBreaks P (cur ++ r) xs := by
  induction r generalizing cur with
  | nil => simp
  | cons x r ih =>
    have hx : P (cur ++ [x]) := hP.left _ r (by simpa using h)
    rw [List.cons_append, greedyBreaks_of_fits hx, ih (cur ++ [x]) (by simpa using h)]
    simp

theorem greedyBreaks_lt_length (hP : Hereditary P) {xs : List α} {runs : List (List α)}
    (h : IsCut P xs runs) (hne : runs ≠ []) : greedyBreaks P [] xs < runs.length := by
  induction runs generalizing xs with
  | nil => exact absurd rfl hne
  | cons r rs ih =>
    obtain ⟨rfl, hnil, hfits⟩ := h
    have hr : P r := hfits r (by simp)
    have hrest : IsCut P rs.flatten rs :=
      ⟨rfl, fun s hs => hnil s (by simp [hs]), fun s hs => hfits s (by simp [hs])⟩
    rw [List.flatten_cons, greedyBreaks_append_run hP [] r rs.flatten hr, List.nil_append]
    cases rs with
    | nil => simp [greedyBreaks]
    | cons s rs =>
      have hlt := ih hrest (by simp)
      have hle := (greedyBreaks_append_left hP r [] (s :: rs).flatten).2
      rw [List.append_nil] at hle
      simp only [List.length_cons] at *
      omega

theorem exists_isCut_greedyBreaks (cur xs : List α) (hsingle : ∀ x ∈ xs, P [x]) (hcur : P cur)
    (hne : cur ≠ []) :
    ∃ runs, IsCut P (cur ++ xs) runs ∧ runs.length = greedyBreaks P cur xs + 1 := by
  induction xs generalizing cur with
  | nil => exact ⟨[cur], ⟨by simp, by simpa using hne, by simpa using hcur⟩, by simp [greedyBreaks]⟩
  | cons x xs ih =>
    have hrest : ∀ z ∈ xs, P [z] := fun z hz => hsingle z (by simp [hz])
    by_cases hx : P (cur ++ [x])
    · rw [greedyBreaks_of_fits hx]
      obtain ⟨runs, hcut, hlen⟩ := ih (cur ++ [x]) hrest hx (by simp)
      exact ⟨runs, by simpa using hcut, hlen⟩
    · rw [greedyBreaks_of_not_fits hx]
      obtain ⟨runs, ⟨hflat, hnil, hfits⟩, hlen⟩ := ih [x] hrest (hsingle x (by simp)) (by simp)
      refine ⟨cur :: runs, ⟨by simp [hflat], ?_, ?_⟩, by simp [hlen]⟩
      · simpa [hne] using hnil
      · simpa [hcur] using hfits

theorem isLeast_greedyBreaks (hP : Hereditary P) {xs : List α} (hsingle : ∀ x ∈ xs, P [x])
    (hne : xs ≠ []) : IsLeast (cutSizes P xs) (greedyBreaks P [] xs + 1) := by
  constructor
  · cases xs with
    | nil => exact absurd rfl hne
    | cons x xs =>
      have hx : P [x] := hsingle x (by simp)
      have h := exists_isCut_greedyBreaks [x] xs (fun z hz => hsingle z (by simp [hz])) hx (by simp)
      rwa [greedyBreaks_of_fits (by simpa using hx)]
  · rintro m ⟨runs, hcut, rfl⟩
    have hruns : runs ≠ [] := by
      rintro rfl
      exact hne hcut.flatten.symm
    exact greedyBreaks_lt_length hP hcut hruns

end

theorem IsCut.mono {P Q : List α → Prop} {xs : List α} {runs : List (List α)}
    (h : IsCut P xs runs) (hPQ : ∀ r ∈ runs, P r → Q r) : IsCut Q xs runs :=
  ⟨h.flatten, h.ne_nil, fun r hr => hPQ r hr (h.fits r hr)⟩

theorem IsCut.tail {P : List α → Prop} {xs r : List α} {rs : List (List α)}
    (h : IsCut P xs (r :: rs)) : IsCut P (xs.drop r.length) rs := by
  obtain ⟨rfl, hnil, hfits⟩ := h
  exact ⟨by simp, fun s hs => hnil s (by simp [hs]), fun s hs => hfits s (by simp [hs])⟩

theorem cutSizes_congr {P Q : List α → Prop} {xs : List α}
    (h : ∀ r, r ⊆ xs → (P r ↔ Q r)) : cutSizes P xs = cutSizes Q xs := by
  have hsub : ∀ runs : List (List α), runs.flatten = xs → ∀ r ∈ runs, r ⊆ xs := by
    rintro runs rfl r hr x hx
    exact List.mem_flatten.mpr ⟨r, hr, hx⟩
  ext m
  constructor
  · rintro ⟨runs, hcut, hlen⟩
    exact ⟨runs, hcut.mono fun r hr => (h r (hsub runs hcut.flatten r hr)).mp, hlen⟩
  · rintro ⟨runs, hcut, hlen⟩
    exact ⟨runs, hcut.mono fun r hr => (h r (hsub runs hcut.flatten r hr)).mpr, hlen⟩

theorem IsCut.cons_take {P : List α → Prop} {xs : List α} {runs : List (List α)} {k : ℕ}
    (h : IsCut P (xs.drop k) runs) (hk : 0 < k) (hxs : xs ≠ []) (hP : P (xs.take k)) :
    IsCut P xs (xs.take k :: runs) where
  flatten := by rw [List.flatten_cons, h.flatten, List.take_append_drop]
  ne_nil := by
    intro r hr
    rcases List.mem_cons.mp hr with rfl | hr
    · simp only [ne_eq, List.take_eq_nil_iff]
      rintro (h0 | h0)
      · omega
      · exact hxs h0
    · exact h.ne_nil r hr
  fits := by
    intro r hr
    rcases List.mem_cons.mp hr with rfl | hr
    · exact hP
    · exact h.fits r hr

theorem IsCut.exists_drop {P : List α → Prop} (hP : Hereditary P) {xs : List α}
    {runs : List (List α)} (h : IsCut P xs runs) (k : ℕ) :
    ∃ runs', IsCut P (xs.drop k) runs' ∧ runs'.length ≤ runs.length := by
  induction runs generalizing xs k with
  | nil =>
    obtain ⟨rfl, _, _⟩ := h
    exact ⟨[], ⟨by simp, by simp, by simp⟩, le_rfl⟩
  | cons r rs ih =>
    obtain ⟨rfl, hnil, hfits⟩ := h
    have hrest : IsCut P rs.flatten rs :=
      ⟨rfl, fun s hs => hnil s (by simp [hs]), fun s hs => hfits s (by simp [hs])⟩
    rw [List.flatten_cons, List.drop_append]
    by_cases hk : r.length ≤ k
    · obtain ⟨runs', hcut, hlen⟩ := ih hrest (k - r.length)
      refine ⟨runs', by simpa [List.drop_eq_nil_of_le hk] using hcut, ?_⟩
      simp only [List.length_cons]
      omega
    · refine ⟨r.drop k :: rs, ⟨?_, ?_, ?_⟩, by simp⟩
      · have : k - r.length = 0 := by omega
        simp [this]
      · intro s hs
        rcases List.mem_cons.mp hs with rfl | hs
        · simp only [ne_eq, List.drop_eq_nil_iff]
          exact hk
        · exact hnil s (by simp [hs])
      · intro s hs
        rcases List.mem_cons.mp hs with rfl | hs
        · exact hP.right (r.take k) _ (by simpa using hfits r (by simp))
        · exact hfits s (by simp [hs])

end LearnedIndexFramework.Lib
