import Mathlib.Data.List.Forall2
import Mathlib.Order.Lattice

/-! Taking computations in `Except` apart, also those that depend on a number of rounds. -/

universe u v

namespace LearnedIndexFramework.Lib

variable {ε : Type u} {α β : Type v}

theorem bind_eq_ok {x : Except ε α} {f : α → Except ε β} {b : β} :
    x >>= f = .ok b ↔ ∃ a, x = .ok a ∧ f a = .ok b := by
  cases x with
  | error e => simp [bind, Except.bind]
  | ok a => simp [bind, Except.bind]

theorem mapM_eq_ok {f : α → Except ε β} {xs : List α} {ys : List β} :
    xs.mapM f = .ok ys ↔ List.Forall₂ (fun x y => f x = .ok y) xs ys := by
  induction xs generalizing ys with
  | nil =>
    rw [List.mapM_nil, List.forall₂_nil_left_iff]
    exact ⟨fun h => (Except.ok.inj h).symm, fun h => congrArg _ h.symm⟩
  | cons x xs ih =>
    rw [List.mapM_cons, bind_eq_ok, List.forall₂_cons_left_iff]
    refine exists_congr fun y => ⟨?_, ?_⟩
    · rintro ⟨hy, h⟩
      obtain ⟨rest, hrest, h⟩ := bind_eq_ok.mp h
      exact ⟨rest, hy, ih.mp hrest, (Except.ok.inj h).symm⟩
    · rintro ⟨rest, hy, hrest, rfl⟩
      exact ⟨hy, bind_eq_ok.mpr ⟨rest, ih.mpr hrest, rfl⟩⟩

theorem exists_mapM {f : α → Except ε β} {xs : List α} (h : ∀ x ∈ xs, ∃ y, f x = .ok y) :
    ∃ ys, xs.mapM f = .ok ys := by
  induction xs with
  | nil => exact ⟨[], rfl⟩
  | cons x xs ih =>
    obtain ⟨y, hy⟩ := h x List.mem_cons_self
    obtain ⟨ys, hys⟩ := ih fun x hx => h x (List.mem_cons_of_mem _ hx)
    exact ⟨y :: ys, mapM_eq_ok.mpr (.cons hy (mapM_eq_ok.mp hys))⟩

/-- From some number of rounds on, `f` gives `a`. -/
def Settles {σ : Type u} (f : ℕ → σ) (a : σ) : Prop := ∃ n, ∀ m ≥ n, f m = a

theorem Settles.const {σ : Type u} (a : σ) : Settles (fun _ => a) a := ⟨0, fun _ _ => rfl⟩

theorem Settles.bind_ok {f : ℕ → Except ε α} {g : ℕ → α → Except ε β} {a : α} {r : Except ε β}
    (hf : Settles f (.ok a)) (hg : Settles (g · a) r) : Settles (fun n => f n >>= g n) r := by
  obtain ⟨n, hn⟩ := hf
  obtain ⟨k, hk⟩ := hg
  refine ⟨max n k, fun m hm => ?_⟩
  have hok := hn m ((le_max_left n k).trans hm)
  simp only [hok, bind, Except.bind]
  exact hk m ((le_max_right n k).trans hm)

theorem Settles.bind_error {f : ℕ → Except ε α} {g : ℕ → α → Except ε β} {e : ε}
    (hf : Settles f (.error e)) : Settles (fun n => f n >>= g n) (.error e) := by
  obtain ⟨n, hn⟩ := hf
  refine ⟨n, fun m hm => ?_⟩
  simp only [hn m hm, bind, Except.bind]

end LearnedIndexFramework.Lib
