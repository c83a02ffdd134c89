import LearnedIndexFramework.Metric.Hull

/-! The invariant of the segmentation from its second point on: the hulls cut out exactly
the lines that fit the accepted points, and the rectangle holds the two extreme ones. -/

namespace LearnedIndexFramework.Metric

open Lib

structure Fit (F : Set (Line ℚ)) (X : ℤ) (hull : Side → List Point) (anchor tip : Side → Point) :
    Prop where
  mem_iff : ∀ L, L ∈ F ↔ ∀ s, ∀ p ∈ hull s, Obeys s L p
  head : ∀ s, ∃ rest, hull s = anchor s :: rest
  bends : ∀ s, Bends s (hull s)
  hull_le : ∀ s, ∀ p ∈ hull s, p.x ≤ X
  anchor_lt_tip : ∀ s, (anchor s).x < (tip s).x
  tip_le : ∀ s, (tip s).x ≤ X
  tip_obeys : ∀ s, ∀ L ∈ F, Obeys s.flip L (tip s)
  line_mem : ∀ s, lineOf (anchor s) (tip s) ∈ F

section Extreme

variable {s : Side} {a t p : Point} {L : Line ℚ}

theorem eval_le_lineOf (hat : a.x < t.x) (ha : Obeys s L a) (ht : Obeys s.flip L t) {x : ℚ}
    (hx : t.x ≤ x) : s.sign * L.eval x ≤ s.sign * (lineOf a t).eval x := by
  have hat' : (a.x : ℚ) < t.x := by exact_mod_cast hat
  cases s with
  | lower =>
    have h₀ : (lineOf a t).eval a.x ≤ L.eval a.x := by
      rw [eval_lineOf_left]
      exact obeys_lower.mp ha
    have h₁ : L.eval t.x ≤ (lineOf a t).eval t.x := by
      rw [eval_lineOf_right hat]
      exact obeys_upper.mp ht
    simpa [Side.sign] using Line.le_of_cross_right hat' h₀ h₁ hx
  | upper =>
    have h₀ : L.eval a.x ≤ (lineOf a t).eval a.x := by
      rw [eval_lineOf_left]
      exact obeys_upper.mp ha
    have h₁ : (lineOf a t).eval t.x ≤ L.eval t.x := by
      rw [eval_lineOf_right hat]
      exact obeys_lower.mp ht
    simpa [Side.sign] using Line.le_of_cross_right hat' h₀ h₁ hx

theorem obeys_of_obeys_lineOf (hat : a.x < t.x) (ha : Obeys s L a) (ht : Obeys s.flip L t)
    (hp : p.x ≤ a.x) (hline : Obeys s (lineOf a t) p) : Obeys s L p := by
  have hat' : (a.x : ℚ) < t.x := by exact_mod_cast hat
  have hp' : (p.x : ℚ) ≤ a.x := by exact_mod_cast hp
  cases s with
  | lower =>
    have h₀ : (lineOf a t).eval a.x ≤ L.eval a.x := by
      rw [eval_lineOf_left]
      exact obeys_lower.mp ha
    have h₁ : L.eval t.x ≤ (lineOf a t).eval t.x := by
      rw [eval_lineOf_right hat]
      exact obeys_upper.mp ht
    exact obeys_lower.mpr ((obeys_lower.mp hline).trans (Line.le_of_cross_left hat' h₀ h₁ hp'))
  | upper =>
    have h₀ : L.eval a.x ≤ (lineOf a t).eval a.x := by
      rw [eval_lineOf_left]
      exact obeys_upper.mp ha
    have h₁ : (lineOf a t).eval t.x ≤ L.eval t.x := by
      rw [eval_lineOf_right hat]
      exact obeys_lower.mp ht
    exact obeys_upper.mpr ((Line.le_of_cross_left hat' h₀ h₁ hp').trans (obeys_upper.mp hline))

end Extreme

theorem obeys_mix {s : Side} {L M : Line ℚ} {p : Point} {t : ℚ} (h0 : 0 ≤ t) (h1 : t ≤ 1)
    (hL : Obeys s L p) (hM : Obeys s M p) : Obeys s (Line.mix t L M) p := by
  simp only [Obeys, Line.eval_mix] at *
  nlinarith [mul_le_mul_of_nonneg_left hL (sub_nonneg.mpr h1), mul_le_mul_of_nonneg_left hM h0]

namespace Fit

variable {F : Set (Line ℚ)} {X : ℤ} {hull : Side → List Point} {anchor tip : Side → Point}

theorem anchor_mem (h : Fit F X hull anchor tip) (s : Side) : anchor s ∈ hull s := by
  obtain ⟨rest, hrest⟩ := h.head s
  simp [hrest]

theorem anchor_obeys (h : Fit F X hull anchor tip) (s : Side) {L : Line ℚ} (hL : L ∈ F) :
    Obeys s L (anchor s) := (h.mem_iff L).mp hL s _ (h.anchor_mem s)

theorem extremes (h : Fit F X hull anchor tip) :
    Extremes F (X : ℚ) (lineOf (anchor .upper) (tip .upper))
      (lineOf (anchor .lower) (tip .lower)) where
  mix L hL M hM t h0 h1 := by
    rw [h.mem_iff] at *
    exact fun s p hp => obeys_mix h0 h1 (hL s p hp) (hM s p hp)
  lo_mem := h.line_mem .upper
  hi_mem := h.line_mem .lower
  lo_le L hL x hx := by
    have htip : ((tip .upper).x : ℚ) ≤ X := by exact_mod_cast h.tip_le .upper
    have := eval_le_lineOf (h.anchor_lt_tip .upper) (h.anchor_obeys .upper hL)
      (h.tip_obeys .upper L hL) (htip.trans hx)
    simpa [Side.sign] using this
  le_hi L hL x hx := by
    have htip : ((tip .lower).x : ℚ) ≤ X := by exact_mod_cast h.tip_le .lower
    have := eval_le_lineOf (h.anchor_lt_tip .lower) (h.anchor_obeys .lower hL)
      (h.tip_obeys .lower L hL) (htip.trans hx)
    simpa [Side.sign] using this

theorem mono (h : Fit F X hull anchor tip) {X' : ℤ} (hX : X ≤ X') : Fit F X' hull anchor tip :=
  { h with
    hull_le := fun s p hp => (h.hull_le s p hp).trans hX
    tip_le := fun s => (h.tip_le s).trans hX }

theorem inter_eq_self (h : Fit F X hull anchor tip) {s : Side} {p : Point} (hp : X ≤ p.x)
    (hline : Obeys s.flip (lineOf (anchor s) (tip s)) p) :
    F ∩ {L | Obeys s.flip L p} = F := by
  refine Set.inter_eq_left.mpr fun L hL => ?_
  have htip : ((tip s).x : ℚ) ≤ p.x := by exact_mod_cast (h.tip_le s).trans hp
  have hle := eval_le_lineOf (h.anchor_lt_tip s) (h.anchor_obeys s hL) (h.tip_obeys s L hL) htip
  change Obeys s.flip L p
  simp only [Obeys, Side.sign_flip, Int.cast_neg] at *
  linarith

theorem tangent_mem (h : Fit F X hull anchor tip) {s : Side} {p c : Point}
    (hown : ∀ q ∈ hull s.flip, q.x < p.x)
    (hcut : ¬ Obeys s.flip (lineOf (anchor s) (tip s)) p)
    (hkeep : Obeys s.flip (lineOf (anchor s.flip) (tip s.flip)) p)
    (hc : c ∈ hull s) (hcp : c.x < p.x) (htangent : ∀ q ∈ hull s, s.sign * cross c p q ≤ 0) :
    lineOf c p ∈ F := by
  have hcp' : (c.x : ℚ) < p.x := by exact_mod_cast hcp
  -- some member passes exactly through `p`, between the two extreme lines
  obtain ⟨L, hL, hLp⟩ : ∃ L ∈ F, L.eval (p.x : ℚ) = p.y := by
    cases s with
    | lower =>
      rw [Side.flip, obeys_upper] at hcut hkeep
      exact h.extremes.exists_eval_eq hkeep (not_le.mp hcut).le
    | upper =>
      rw [Side.flip, obeys_lower] at hcut hkeep
      exact h.extremes.exists_eval_eq (not_le.mp hcut).le hkeep
  have hLc : Obeys s L c := (h.mem_iff L).mp hL s c hc
  rw [h.mem_iff]
  intro t q hq
  by_cases hts : t = s
  · subst hts
    exact (obeys_lineOf_iff hcp t q).mpr (htangent q hq)
  · obtain rfl : t = s.flip := by cases s <;> cases t <;> simp_all [Side.flip]
    have hq' : (q.x : ℚ) ≤ p.x := by exact_mod_cast (hown q hq).le
    have hLq : Obeys s.flip L q := (h.mem_iff L).mp hL _ q hq
    have hend : (lineOf c p).eval (p.x : ℚ) = L.eval (p.x : ℚ) := by
      rw [eval_lineOf_right hcp, hLp]
    cases s with
    | lower =>
      have hstart : (lineOf c p).eval (c.x : ℚ) ≤ L.eval (c.x : ℚ) := by
        rw [eval_lineOf_left]
        exact obeys_lower.mp hLc
      exact obeys_upper.mpr ((Line.le_of_meet hcp' hstart hend hq').trans (obeys_upper.mp hLq))
    | upper =>
      have hstart : L.eval (c.x : ℚ) ≤ (lineOf c p).eval (c.x : ℚ) := by
        rw [eval_lineOf_left]
        exact obeys_upper.mp hLc
      exact obeys_lower.mpr
        ((obeys_lower.mp hLq).trans (Line.le_of_meet hcp' hstart hend.symm hq'))

theorem obeys_of_drop (h : Fit F X hull anchor tip) {s : Side} {p c : Point} {k : ℕ}
    {rest : List Point} {L : Line ℚ} (hdrop : (hull s).drop k = c :: rest) (hcp : c.x < p.x)
    (htangent : ∀ q ∈ hull s, s.sign * cross c p q ≤ 0)
    (hrest : ∀ q ∈ c :: rest, Obeys s L q) (hLp : Obeys s.flip L p) :
    ∀ q ∈ hull s, Obeys s L q := by
  intro q hq
  rw [← List.take_append_drop k (hull s), hdrop] at hq
  rcases List.mem_append.mp hq with hq | hq
  · have hpair := (h.bends s).pairwise
    rw [← List.take_append_drop k (hull s), hdrop, List.pairwise_append] at hpair
    have hqc : q.x < c.x := hpair.2.2 q hq c (by simp)
    exact obeys_of_obeys_lineOf hcp (hrest c (by simp)) hLp hqc.le
      ((obeys_lineOf_iff hcp s q).mpr (htangent q (List.mem_of_mem_take hq)))
  · exact hrest q hq

theorem mem_limit_iff (h : Fit F X hull anchor tip) {s : Side} {p c : Point} {k : ℕ}
    {rest kept : List Point} {L : Line ℚ} (hdrop : (hull s).drop k = c :: rest) (hcp : c.x < p.x)
    (htangent : ∀ q ∈ hull s, s.sign * cross c p q ≤ 0)
    (hkept : ∀ q ∈ kept, q ∈ hull s.flip)
    (hkept_all : (∀ q ∈ kept ++ [p], Obeys s.flip L q) → ∀ q ∈ hull s.flip, Obeys s.flip L q) :
    L ∈ F ∩ {L | Obeys s.flip L p} ↔
      (∀ q ∈ c :: rest, Obeys s L q) ∧ ∀ q ∈ kept ++ [p], Obeys s.flip L q := by
  constructor
  · rintro ⟨hL, hLp⟩
    rw [h.mem_iff] at hL
    refine ⟨fun q hq => hL s q (List.mem_of_mem_drop (hdrop ▸ hq)), fun q hq => ?_⟩
    rcases List.mem_append.mp hq with hq | hq
    · exact hL _ q (hkept q hq)
    · obtain rfl := List.mem_singleton.mp hq
      exact hLp
  · rintro ⟨hs, hflip⟩
    have hLp : Obeys s.flip L p := hflip p (by simp)
    have hscanned := h.obeys_of_drop hdrop hcp htangent hs hLp
    exact ⟨(h.mem_iff L).mpr (s.forall_of_flip hscanned (hkept_all hflip)), hLp⟩

theorem limit (h : Fit F X hull anchor tip) {s : Side} {p c : Point} {k : ℕ}
    {rest kept : List Point} (hXp : X ≤ p.x) (hle : ∀ q ∈ hull s, q.x ≤ p.x)
    (hown : ∀ q ∈ hull s.flip, q.x < p.x)
    (hcut : ¬ Obeys s.flip (lineOf (anchor s) (tip s)) p)
    (hkeep : Obeys s.flip (lineOf (anchor s.flip) (tip s.flip)) p)
    (hdrop : (hull s).drop k = c :: rest) (hcp : c.x < p.x)
    (htangent : ∀ q ∈ hull s, s.sign * cross c p q ≤ 0)
    (hkept : ∀ q ∈ kept, q ∈ hull s.flip) (hkept_head : ∃ r, kept = anchor s.flip :: r)
    (hkept_bends : Bends s.flip (kept ++ [p]))
    (hkept_all : ∀ L, (∀ q ∈ kept ++ [p], Obeys s.flip L q) →
      ∀ q ∈ hull s.flip, Obeys s.flip L q)
    {hull' : Side → List Point} {anchor' tip' : Side → Point}
    (hhull : hull' s = c :: rest) (hhull_own : hull' s.flip = kept ++ [p])
    (hanchor : anchor' s = c) (hanchor_own : anchor' s.flip = anchor s.flip)
    (htip : tip' s = p) (htip_own : tip' s.flip = tip s.flip) :
    Fit (F ∩ {L | Obeys s.flip L p}) p.x hull' anchor' tip' := by
  have hcmem : c ∈ hull s := List.mem_of_mem_drop (hdrop ▸ List.mem_cons_self)
  have hsub : ∀ q ∈ c :: rest, q ∈ hull s := fun q hq => List.mem_of_mem_drop (hdrop ▸ hq)
  have hline := h.tangent_mem hown hcut hkeep hcmem hcp htangent
  have hline_p : Obeys s.flip (lineOf c p) p := by simp [Obeys, eval_lineOf_right hcp]
  constructor
  · intro L
    rw [h.mem_limit_iff hdrop hcp htangent hkept (hkept_all L), ← hhull, ← hhull_own]
    exact ⟨fun hL => s.forall_of_flip hL.1 hL.2, fun hL => ⟨hL s, hL s.flip⟩⟩
  · refine s.forall_of_flip ⟨rest, by rw [hhull, hanchor]⟩ ?_
    obtain ⟨r, rfl⟩ := hkept_head
    exact ⟨r ++ [p], by rw [hhull_own, hanchor_own]; rfl⟩
  · refine s.forall_of_flip ?_ (by rwa [hhull_own])
    rw [hhull, ← hdrop]
    exact (h.bends s).drop k
  · refine s.forall_of_flip ?_ ?_
    · rw [hhull]
      exact fun q hq => hle q (hsub q hq)
    · rw [hhull_own]
      intro q hq
      rcases List.mem_append.mp hq with hq | hq
      · exact (hown q (hkept q hq)).le
      · obtain rfl : q = p := by simpa using hq
        exact le_rfl
  · refine s.forall_of_flip (by rwa [hanchor, htip]) ?_
    rw [hanchor_own, htip_own]
    exact h.anchor_lt_tip _
  · refine s.forall_of_flip (by rw [htip]) ?_
    rw [htip_own]
    exact (h.tip_le _).trans hXp
  · refine s.forall_of_flip ?_ ?_
    · rw [htip]
      exact fun L hL => hL.2
    · rw [htip_own]
      exact fun L hL => h.tip_obeys _ L hL.1
  · refine s.forall_of_flip ?_ ?_
    · rw [hanchor, htip]
      exact ⟨hline, hline_p⟩
    · rw [hanchor_own, htip_own]
      exact ⟨h.line_mem _, hkeep⟩

end Fit

end LearnedIndexFramework.Metric
