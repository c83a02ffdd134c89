import Mathlib.Data.List.Infix
import Mathlib.Tactic.Common
import LearnedIndexFramework.Lib.Fallible

/-! Runs of a machine whose steps may fail, and their refinement of an abstract machine. -/

universe u v

namespace LearnedIndexFramework.Lib

section

variable {ε : Type u} {σ ρ : Type v} {α : Type} (step : σ → α → Except ε (ρ × σ))

def run : σ → List α → Except ε (List ρ × σ)
  | s, [] => .ok ([], s)
  | s, c :: cs => do
    let (r, s) ← step s c
    let (rs, s) ← run s cs
    return (r :: rs, s)

def Meets (cond : σ → α → Prop) : σ → List α → Prop
  | _, [] => True
  | s, c :: cs => cond s c ∧ ∀ r s', step s c = .ok (r, s') → Meets cond s' cs

end

variable {ε : Type u} {σ ρ : Type v} {α : Type} {step : σ → α → Except ε (ρ × σ)}
  {cond : σ → α → Prop} {s s' : σ} {c : α} {cs ds : List α} {r : ρ} {rs : List ρ}

theorem run_cons (h : step s c = .ok (r, s')) :
    run step s (c :: cs) = run step s' cs >>= fun rest => .ok (r :: rest.1, rest.2) := by
  rw [run, h]
  rfl

theorem run_append : run step s (cs ++ ds) = .ok (rs, s') ↔ ∃ rs₁ s₁ rs₂,
    run step s cs = .ok (rs₁, s₁) ∧ run step s₁ ds = .ok (rs₂, s') ∧ rs = rs₁ ++ rs₂ := by
  induction cs generalizing s rs with
  | nil => simp [run]
  | cons c cs ih =>
    rw [List.cons_append, run, run, bind_eq_ok]
    constructor
    · rintro ⟨⟨r, s₁⟩, hs, hrest⟩
      obtain ⟨⟨rs', s₂⟩, hrun, hret⟩ := bind_eq_ok.mp hrest
      cases hret
      obtain ⟨rs₁, s₃, rs₂, hcs, hds, rfl⟩ := ih.mp hrun
      exact ⟨r :: rs₁, s₃, rs₂, by simp [hs, hcs, bind, Except.bind, pure, Except.pure], hds, rfl⟩
    · rintro ⟨rs₁, s₁, rs₂, hcs, hds, rfl⟩
      obtain ⟨⟨r, s₂⟩, hs, hrest⟩ := bind_eq_ok.mp hcs
      obtain ⟨⟨rs', s₃⟩, hrun, hret⟩ := bind_eq_ok.mp hrest
      cases hret
      refine ⟨(r, s₂), hs, ?_⟩
      rw [bind_eq_ok]
      exact ⟨(rs' ++ rs₂, s'), ih.mpr ⟨rs', s₁, rs₂, hrun, hds, rfl⟩, rfl⟩

theorem run_take (hrun : run step s cs = .ok (rs, s')) (k : ℕ) :
    ∃ s₁, run step s (cs.take k) = .ok (rs.take k, s₁) := by
  induction cs generalizing s rs k with
  | nil =>
    cases hrun
    exact ⟨s', by simp [run]⟩
  | cons c cs ih =>
    obtain ⟨⟨r, s₁⟩, hs, hrest⟩ := bind_eq_ok.mp hrun
    obtain ⟨⟨rs', s₂⟩, hrun', hret⟩ := bind_eq_ok.mp hrest
    cases hret
    cases k with
    | zero => exact ⟨s, rfl⟩
    | succ k =>
      obtain ⟨s₃, htake⟩ := ih hrun' k
      refine ⟨s₃, ?_⟩
      rw [List.take_succ_cons, run_cons hs, htake]
      rfl

def meets (step : σ → α → Except ε (ρ × σ)) (cond : σ → α → Prop) [∀ s c, Decidable (cond s c)] :
    σ → List α → Bool
  | _, [] => true
  | s, c :: cs => decide (cond s c) && match step s c with
    | .ok x => meets step cond x.2 cs
    | .error _ => true

theorem meets_iff [∀ s c, Decidable (cond s c)] :
    meets step cond s cs = true ↔ Meets step cond s cs := by
  induction cs generalizing s with
  | nil => simp [meets, Meets]
  | cons c cs ih =>
    rw [meets, Meets, Bool.and_eq_true, decide_eq_true_iff]
    refine and_congr_right fun _ => ?_
    cases step s c with
    | error e => simp
    | ok x => simp [ih, Prod.ext_iff]

instance [∀ s c, Decidable (cond s c)] : Decidable (Meets step cond s cs) :=
  decidable_of_iff _ meets_iff

theorem Meets.of_forall (h : ∀ s c, cond s c) (s : σ) (cs : List α) : Meets step cond s cs := by
  induction cs generalizing s with
  | nil => trivial
  | cons c cs ih => exact ⟨h s c, fun _ s' _ => ih s'⟩

theorem Meets.imp {cond' : σ → α → Prop} (h : Meets step cond s cs)
    (himp : ∀ s c, cond s c → cond' s c) : Meets step cond' s cs := by
  induction cs generalizing s with
  | nil => trivial
  | cons c cs ih => exact ⟨himp s c h.1, fun r s' hstep => ih (h.2 r s' hstep)⟩

theorem Meets.initial (h : Meets step cond s cs) (hds : ds <+: cs) : Meets step cond s ds := by
  induction ds generalizing s cs with
  | nil => trivial
  | cons d ds ih =>
    obtain ⟨rest, rfl⟩ := hds
    exact ⟨h.1, fun r s' hstep => ih (h.2 r s' hstep) (List.prefix_append ds rest)⟩

theorem run_invariant {inv : σ → Prop}
    (hstep : ∀ s c r s', inv s → cond s c → step s c = .ok (r, s') → inv s')
    (hinv : inv s) (hmeets : Meets step cond s cs) (hrun : run step s cs = .ok (rs, s')) :
    inv s' := by
  induction cs generalizing s rs with
  | nil =>
    cases hrun
    exact hinv
  | cons c cs ih =>
    obtain ⟨⟨r, s₁⟩, hs, hrest⟩ := bind_eq_ok.mp hrun
    obtain ⟨⟨rs', s₂⟩, hrun', hret⟩ := bind_eq_ok.mp hrest
    cases hret
    exact ih (hstep s c r s₁ hinv hmeets.1 hs) (hmeets.2 r s₁ hs) hrun'

theorem run_succeeds {inv : σ → Prop}
    (hstep : ∀ s c, inv s → cond s c → ∃ r s', step s c = .ok (r, s') ∧ inv s')
    (hinv : inv s) (hmeets : Meets step cond s cs) :
    ∃ rs s', run step s cs = .ok (rs, s') ∧ inv s' := by
  induction cs generalizing s with
  | nil => exact ⟨[], s, rfl, hinv⟩
  | cons c cs ih =>
    obtain ⟨r, s', hs, hinv'⟩ := hstep s c hinv hmeets.1
    obtain ⟨rs, s'', hrun, hinv''⟩ := ih hinv' (hmeets.2 r s' hs)
    refine ⟨r :: rs, s'', ?_, hinv''⟩
    rw [run_cons hs, hrun]
    rfl

section Refine

variable {μ : Type} {next : μ → α → μ} {good : μ → α → ρ → Prop} {rel : σ → μ → Prop} {m : μ}

inductive Replies (next : μ → α → μ) (good : μ → α → ρ → Prop) : μ → List α → List ρ → Prop
  | nil (m : μ) : Replies next good m [] []
  | cons {m : μ} {c : α} {r : ρ} {cs : List α} {rs : List ρ} :
      good m c r → Replies next good (next m c) cs rs → Replies next good m (c :: cs) (r :: rs)

theorem run_refines
    (hstep : ∀ s m c, rel s m → cond s c →
      ∃ r s', step s c = .ok (r, s') ∧ good m c r ∧ rel s' (next m c))
    (hrel : rel s m) (hmeets : Meets step cond s cs) :
    ∃ rs s', run step s cs = .ok (rs, s') ∧ Replies next good m cs rs ∧
      rel s' (cs.foldl next m) := by
  induction cs generalizing s m with
  | nil => exact ⟨[], s, rfl, .nil m, hrel⟩
  | cons c cs ih =>
    obtain ⟨r, s', hs, hgood, hrel'⟩ := hstep s m c hrel hmeets.1
    obtain ⟨rs, s'', hrun, hreplies, hrel''⟩ := ih hrel' (hmeets.2 r s' hs)
    refine ⟨r :: rs, s'', ?_, .cons hgood hreplies, hrel''⟩
    rw [run_cons hs, hrun]
    rfl

end Refine

end LearnedIndexFramework.Lib
