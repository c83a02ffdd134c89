import LearnedIndexFramework.Lib.Layers

/-! The first entries of a partial map on ordered keys. -/

universe u v

namespace LearnedIndexFramework.Lib

variable {K : Type u} {V : Type v} [LinearOrder K]

def IsFirst (m : K → Option V) (p : K → Prop) : Option (K × V) → Prop
  | none => ∀ k, p k → m k = none
  | some e => p e.1 ∧ m e.1 = some e.2 ∧ ∀ k, p k → k < e.1 → m k = none

structure Lists (m : K → Option V) (p : K → Prop) (n : ℕ) (xs : List (K × V)) : Prop where
  ascending : KeyAscending Prod.fst xs
  sound : ∀ e ∈ xs, p e.1 ∧ m e.1 = some e.2
  length_le : xs.length ≤ n
  complete : ∀ k v, p k → m k = some v → (k, v) ∈ xs ∨ xs.length = n ∧ ∀ e ∈ xs, e.1 < k

variable {m : K → Option V} {p : K → Prop} {n : ℕ} {xs ys : List (K × V)} {e : K × V}

theorem Lists.zero (m : K → Option V) (p : K → Prop) : Lists m p 0 [] where
  ascending := List.Pairwise.nil
  sound _ he := absurd he List.not_mem_nil
  length_le := le_rfl
  complete _ _ _ _ := .inr ⟨rfl, fun _ he => absurd he List.not_mem_nil⟩

theorem Lists.nil (h : IsFirst m p none) (n : ℕ) : Lists m p n [] where
  ascending := List.Pairwise.nil
  sound _ he := absurd he List.not_mem_nil
  length_le := Nat.zero_le n
  complete k v hk hv := by
    rw [h k hk] at hv
    cases hv

theorem Lists.cons (he : IsFirst m p (some e)) (hp : ∀ k, e.1 < k → p k)
    (h : Lists m (e.1 < ·) n xs) : Lists m p (n + 1) (e :: xs) where
  ascending := keyAscending_cons.mpr ⟨fun y hy => (h.sound y hy).1, h.ascending⟩
  sound y hy := by
    rcases List.mem_cons.mp hy with rfl | hy
    · exact ⟨he.1, he.2.1⟩
    · exact ⟨hp _ (h.sound y hy).1, (h.sound y hy).2⟩
  length_le := Nat.succ_le_succ h.length_le
  complete k v hk hv := by
    rcases lt_trichotomy k e.1 with hlt | rfl | hlt
    · rw [he.2.2 k hk hlt] at hv
      cases hv
    · obtain rfl := Option.some.inj (hv.symm.trans he.2.1)
      exact .inl List.mem_cons_self
    · refine (h.complete k v hlt hv).imp (List.mem_cons_of_mem e) fun ⟨hfull, hbefore⟩ => ?_
      refine ⟨congrArg Nat.succ hfull, fun y hy => ?_⟩
      rcases List.mem_cons.mp hy with rfl | hy
      · exact hlt
      · exact hbefore y hy

theorem Lists.tail (h : Lists m p (n + 1) (e :: xs)) : Lists m (fun k => p k ∧ e.1 < k) n xs where
  ascending := h.ascending.tail
  sound y hy :=
    ⟨⟨(h.sound y (List.mem_cons_of_mem e hy)).1, (keyAscending_cons.mp h.ascending).1 y hy⟩,
      (h.sound y (List.mem_cons_of_mem e hy)).2⟩
  length_le := Nat.le_of_succ_le_succ h.length_le
  complete k v hk hv := by
    rcases h.complete k v hk.1 hv with hmem | ⟨hfull, hbefore⟩
    · rcases List.mem_cons.mp hmem with rfl | hmem
      · exact absurd hk.2 (lt_irrefl _)
      · exact .inl hmem
    · exact .inr ⟨Nat.succ.inj hfull, fun y hy => hbefore y (List.mem_cons_of_mem e hy)⟩

theorem Lists.head_eq {e' : K × V} (h : Lists m p n (e :: xs)) (h' : Lists m p n (e' :: ys)) :
    e = e' := by
  have hle : ∀ {e e' : K × V} {xs ys : List (K × V)}, Lists m p n (e :: xs) →
      Lists m p n (e' :: ys) → e.1 ≤ e'.1 := by
    intro e e' xs ys h h'
    obtain ⟨hp, hm⟩ := h'.sound e' List.mem_cons_self
    rcases h.complete e'.1 e'.2 hp hm with hmem | ⟨-, hbefore⟩
    · rcases List.mem_cons.mp hmem with heq | hmem
      · exact (congrArg Prod.fst heq).ge
      · exact ((keyAscending_cons.mp h.ascending).1 _ hmem).le
    · exact (hbefore e List.mem_cons_self).le
  have hkey : e.1 = e'.1 := le_antisymm (hle h h') (hle h' h)
  have hm := (h.sound e List.mem_cons_self).2
  rw [hkey, (h'.sound e' List.mem_cons_self).2] at hm
  exact Prod.ext hkey (Option.some.inj hm).symm

theorem Lists.not_cons (h : Lists m p n []) : ¬ Lists m p n (e :: xs) := by
  intro h'
  obtain ⟨hp, hm⟩ := h'.sound e List.mem_cons_self
  rcases h.complete e.1 e.2 hp hm with hmem | ⟨hfull, -⟩
  · exact List.not_mem_nil hmem
  · have hlength := h'.length_le
    rw [← hfull] at hlength
    exact Nat.not_succ_le_zero _ hlength

theorem Lists.unique (h : Lists m p n xs) (h' : Lists m p n ys) : xs = ys := by
  induction xs generalizing p n ys with
  | nil =>
    cases ys with
    | nil => rfl
    | cons y ys => exact absurd h' h.not_cons
  | cons x xs ih =>
    cases ys with
    | nil => exact absurd h h'.not_cons
    | cons y ys =>
      obtain rfl := h.head_eq h'
      obtain ⟨n, rfl⟩ : ∃ k, n = k + 1 :=
        ⟨n - 1, by have := h.length_le; rw [List.length_cons] at this; omega⟩
      rw [ih h.tail h'.tail]

end LearnedIndexFramework.Lib
