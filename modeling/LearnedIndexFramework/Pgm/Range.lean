import LearnedIndexFramework.Pgm.Find

/-! Range queries merge the parts of all levels between two keys. -/

namespace LearnedIndexFramework.Pgm

open Lib

variable {K V : Type} [LinearOrder K]

theorem hit_slice {items : List (Item K V)} {lo hi : K} (hasc : Ascending items) (k : K) :
    hit Item.first k
        ((items.take (rankAbove Item.first hi items)).drop (rank Item.first lo items)) =
      if lo ≤ k ∧ k ≤ hi then hit Item.first k items else none := by
  have hslice := hasc.sublist (((items.take (rankAbove Item.first hi items)).drop_sublist
    (rank Item.first lo items)).trans (List.take_sublist _ _))
  ext x
  rw [hit_eq_some hslice, hasc.mem_slice]
  split
  case isTrue hk =>
    rw [hit_eq_some hasc]
    constructor
    · rintro ⟨⟨hx, -⟩, hkey⟩
      exact ⟨hx, hkey⟩
    · rintro ⟨hx, rfl⟩
      exact ⟨⟨hx, hk⟩, rfl⟩
  case isFalse hk =>
    constructor
    · rintro ⟨⟨-, hx⟩, rfl⟩
      exact absurd hx hk
    · rintro ⟨⟩

namespace DynamicPgm

variable [OrderTop K] [DecidableEq V] [Top V] {search : List K → K → Except Stop (ℕ × ℕ)}
  {t : DynamicPgm K V} {lo hi : K} {tmp : List (Item K V)} {inside : Set K} {j n limit : ℕ}

structure Merged (levels : List (List (Item K V))) (lo hi : K) (tmp : List (Item K V)) :
    Prop where
  ascending : Ascending tmp
  hit_eq : ∀ k, hit Item.first k tmp =
    if lo ≤ k ∧ k ≤ hi then hitFirst Item.first k levels else none

omit [OrderTop K] [DecidableEq V] [Top V] in
theorem Merged.congr {levels levels' : List (List (Item K V))} (h : Merged levels lo hi tmp)
    (heq : ∀ k, lo ≤ k → k ≤ hi →
      hitFirst Item.first k levels' = hitFirst Item.first k levels) :
    Merged levels' lo hi tmp where
  ascending := h.ascending
  hit_eq k := by
    rw [h.hit_eq]
    split
    case isTrue hk => rw [heq k hk.1 hk.2]
    case isFalse => rfl

theorem rangeFrom_spec (h : t.Valid) (hsearch : t.Searchable inside limit search)
    (hle : lo ≤ hi) (hlo : lo ∈ inside) (hhi : hi ∈ inside) (hlen : j + n ≤ t.levels.length)
    (hmerged : Merged (t.levels.take j) lo hi tmp) :
    ∃ tmp', t.rangeFrom search lo hi n (t.minLevel + j) tmp = .ok tmp' ∧
      Merged (t.levels.take (j + n)) lo hi tmp' := by
  induction n generalizing j tmp with
  | zero => exact ⟨tmp, rfl, hmerged⟩
  | succ n ih =>
    have hget := List.getElem?_eq_getElem (show j < t.levels.length by omega)
    generalize t.levels[j] = level at hget
    have htake : ∀ k, hitFirst Item.first k (t.levels.take (j + 1)) =
        (hitFirst Item.first k (t.levels.take j)).or (hit Item.first k level) := by
      intro k
      rw [List.take_add_one, hget, Option.toList_some, hitFirst_append, hitFirst_cons,
        hitFirst_nil, Option.or_none]
    have hasc := h.ascending level (List.mem_of_getElem? hget)
    have hgo : ∀ tmp₁, Merged (t.levels.take (j + 1)) lo hi tmp₁ →
        ∃ tmp', t.rangeFrom search lo hi n (t.minLevel + j + 1) tmp₁ = .ok tmp' ∧
          Merged (t.levels.take (j + (n + 1))) lo hi tmp' := by
      intro tmp₁ htmp₁
      have := ih (j := j + 1) (by omega) htmp₁
      rwa [Nat.add_right_comm j 1 n] at this
    rw [rangeFrom, level_eq_ok.mpr hget]
    simp only [bind, Except.bind]
    split
    case isTrue hempty =>
      obtain rfl := List.isEmpty_iff.mp hempty
      refine hgo tmp (hmerged.congr fun k _ _ => ?_)
      rw [htake, hit_nil, Option.or_none]
    case isFalse hne =>
      obtain ⟨w, hwindow, hlo₁, hhi₁, hle₁⟩ :=
        window_spec h hsearch hget (by simpa using hne) hlo
      obtain ⟨w', hwindow', hlo₂, hhi₂, hle₂⟩ :=
        window_spec h hsearch hget (by simpa using hne) hhi
      have hrank : rank Item.first lo level ≤ rankAbove Item.first hi level := by
        refine List.countP_mono_left fun x _ hx => ?_
        simp only [decide_eq_true_eq] at hx ⊢
        exact (hx.trans_le hle).le
      rw [hwindow, hwindow']
      simp only
      rw [lowerBoundBl_eq hasc hlo₁ (rank_le_rankAbove.trans hhi₁) hle₁]
      simp only
      rw [upperBound_eq hasc (max_le hrank (hlo₂.trans rank_le_rankAbove)) hhi₂ hle₂]
      split
      case isTrue hnone =>
        refine hgo tmp (hmerged.congr fun k hk hk' => ?_)
        have hslice := @hit_slice _ _ _ _ lo hi hasc k
        rw [if_pos ⟨hk, hk'⟩, hnone, List.drop_eq_nil_of_le (List.length_take_le _ _),
          hit_nil] at hslice
        rw [htake, ← hslice, Option.or_none]
      case isFalse hsome =>
        have hslice := hasc.sublist (((level.take (rankAbove Item.first hi level)).drop_sublist
          (rank Item.first lo level)).trans (List.take_sublist _ _))
        refine hgo _ ⟨ascending_merge hmerged.ascending hslice, fun k => ?_⟩
        rw [hit_merge hmerged.ascending hslice, hmerged.hit_eq, hit_slice hasc, htake, cancel,
          Bool.false_and, Bool.false_and, if_neg Bool.false_ne_true]
        split <;> rfl

theorem range_spec (h : t.Valid) (hsearch : t.Searchable inside limit search)
    (hle : lo ≤ hi) (hlo : lo ∈ inside) (hhi : hi ∈ inside) :
    ∃ xs, t.range search lo hi = .ok xs ∧ KeyAscending Prod.fst xs ∧
      ∀ k v, (k, v) ∈ xs ↔ lo ≤ k ∧ k ≤ hi ∧ view t.levels k = some v := by
  have hmin := h.used
  have hroom := h.room
  obtain ⟨tmp, hrun, hmerged⟩ := rangeFrom_spec (j := 0) (n := t.usedLevels - t.minLevel)
    h hsearch hle hlo hhi (by omega) ⟨List.Pairwise.nil, fun k => by simp⟩
  rw [Nat.zero_add] at hmerged
  refine ⟨(tmp.filter (!·.deleted)).map fun item => (item.first, item.second), ?_, ?_,
    fun k v => ?_⟩
  · rw [range, if_neg (not_lt.mpr hle)]
    exact bind_eq_ok.mpr ⟨tmp, hrun, rfl⟩
  · exact List.pairwise_map.mpr (hmerged.ascending.filter _)
  · have hview : lo ≤ k ∧ k ≤ hi ∧ view t.levels k = some v ↔
        live (hit Item.first k tmp) = some v := by
      rw [hmerged.hit_eq, view_take h]
      split
      · next hk => simp only [hk.1, hk.2, true_and]
      · next hk => exact ⟨fun hin => absurd ⟨hin.1, hin.2.1⟩ hk, fun hnone => by cases hnone⟩
    rw [hview]
    constructor
    · intro hmem
      obtain ⟨x, hx, heq⟩ := List.mem_map.mp hmem
      obtain ⟨hx, hlive⟩ := List.mem_filter.mp hx
      cases heq
      rw [hit_of_mem hmerged.ascending hx, live_of_not_deleted (by simpa using hlive)]
    · intro hlive
      cases hhit : hit Item.first k tmp with
      | none =>
        rw [hhit] at hlive
        cases hlive
      | some x =>
        rw [hhit] at hlive
        obtain ⟨hx, rfl⟩ := (hit_eq_some hmerged.ascending).mp hhit
        cases hdeleted : x.deleted with
        | true =>
          rw [live, Option.bind_some, if_pos hdeleted] at hlive
          cases hlive
        | false =>
          rw [live_of_not_deleted hdeleted, Option.some_inj] at hlive
          exact List.mem_map.mpr ⟨x, List.mem_filter.mpr ⟨hx, by simp [hdeleted]⟩, by rw [hlive]⟩

end DynamicPgm

end LearnedIndexFramework.Pgm
