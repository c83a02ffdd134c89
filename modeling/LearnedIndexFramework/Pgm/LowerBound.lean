import LearnedIndexFramework.Lib.Listing
import LearnedIndexFramework.Pgm.Find

/-! The search for the first live item from a key on: a pass over the levels that keeps the best
item so far and the deleted keys in front of it. -/

namespace LearnedIndexFramework.Pgm.DynamicPgm

open Lib

variable {K V : Type} [LinearOrder K] [DecidableEq V] [Top V]

structure Passed (t : DynamicPgm K V) (key : K) (seen : K → Option (Item K V)) (b : Bound K) :
    Prop where
  hidden : ∀ k, key ≤ k → (∀ c ∈ b.lb, k < c.2) →
    live (seen k) = none ∧ (k ∈ b.deleted ↔ (seen k).isSome = true)
  found : ∀ c ∈ b.lb, key < c.2 ∧
    ∃ x, seen c.2 = some x ∧ x.deleted = false ∧ t.deref c.1 = .ok x

variable {t : DynamicPgm K V} {key : K} {seen seen' : K → Option (Item K V)} {b : Bound K}
  {j : ℕ} {items level pre : List (Item K V)}

theorem Passed.congr (h : t.Passed key seen b)
    (hsame : ∀ k, key ≤ k → (∀ c ∈ b.lb, k < c.2) → seen' k = seen k)
    (hmore : ∀ c ∈ b.lb, ∀ x, seen c.2 = some x → seen' c.2 = some x) : t.Passed key seen' b where
  hidden k hk hc := by
    rw [hsame k hk hc]
    exact h.hidden k hk hc
  found c hc := by
    obtain ⟨hlt, x, hx, hdeleted, hderef⟩ := h.found c hc
    exact ⟨hlt, x, hmore c hc x hx, hdeleted, hderef⟩

omit [LinearOrder K] in
theorem live_eq_none_iff {x : Item K V} : live (some x) = none ↔ x.deleted = true := by
  rw [live, Option.bind_some]
  split <;> simp_all

omit [LinearOrder K] in
theorem all_ne_iff [DecidableEq K] {ks : List K} {k : K} :
    ks.all (· ≠ k) = true ↔ k ∉ ks := by
  rw [List.all_eq_true]
  constructor
  · intro h hk
    exact of_decide_eq_true (h k hk) rfl
  · rintro h j hj
    exact decide_eq_true (ne_of_mem_of_not_mem hj h)

section Pass

variable {item : Item K V} {c : Cursor}

omit [DecidableEq V] [Top V] in
theorem hit_of_lt (hasc : Ascending (pre ++ item :: items)) {k : K} (hk : k < item.first) :
    hit Item.first k (pre ++ item :: items) = hit Item.first k pre := by
  have hbehind := (keyAscending_cons.mp (List.pairwise_append.mp hasc).2.1).1
  have hnone : hit Item.first k (item :: items) = none := by
    refine hit_eq_none_of_lt fun z hz => ?_
    rcases List.mem_cons.mp hz with rfl | hz
    · exact hk
    · exact hk.trans (hbehind z hz)
  rw [hit_append, hnone, Option.or_none]

omit [DecidableEq V] [Top V] in
theorem hit_passed (hasc : Ascending (pre ++ item :: items)) :
    hit Item.first item.first pre = none :=
  hit_eq_none.mpr fun z hz => ((List.pairwise_append.mp hasc).2.2 z hz item List.mem_cons_self).ne

omit [DecidableEq V] [Top V] in
theorem hit_item (hasc : Ascending (pre ++ item :: items)) :
    hit Item.first item.first (pre ++ item :: items) = some item := by
  rw [hit_append, hit_passed hasc, Option.none_or, hit_cons_self]

omit [DecidableEq V] [Top V] in
theorem hit_snoc_of_ne {k : K} (hk : k ≠ item.first) :
    hit Item.first k (pre ++ [item]) = hit Item.first k pre := by
  rw [hit_append, hit_cons_of_ne (Ne.symm hk), hit_nil, Option.or_none]

variable (h : t.Passed key (fun k => (seen k).or (hit Item.first k pre)) b)
include h

theorem Passed.stop (hasc : Ascending (pre ++ item :: items))
    (hstop : ¬ b.lb.all (item.first < ·.2) = true) :
    t.Passed key (fun k => (seen k).or (hit Item.first k (pre ++ item :: items))) b := by
  refine h.congr (fun k hk hc => ?_) fun c hc x hx => ?_
  · cases hlb : b.lb with
    | none =>
      rw [hlb] at hstop
      exact absurd rfl hstop
    | some c =>
      rw [hlb, Option.all_some, decide_eq_true_eq] at hstop
      have hlt := hc c hlb
      rw [hit_of_lt hasc (hlt.trans_le (not_lt.mp hstop))]
  · rw [hit_append, ← Option.or_assoc, hx, Option.some_or]

theorem Passed.bury (hasc : Ascending (pre ++ item :: items)) (hkey : key ≤ item.first)
    (hunder : ∀ c ∈ b.lb, item.first < c.2) (hdeleted : item.deleted = true) :
    t.Passed key (fun k => (seen k).or (hit Item.first k (pre ++ [item])))
      { b with deleted := item.first :: b.deleted } := by
  obtain ⟨hlive, -⟩ := h.hidden item.first hkey hunder
  rw [hit_passed hasc, Option.or_none] at hlive
  refine ⟨fun k hk hc => ?_, fun c hc => ?_⟩
  · by_cases hkitem : k = item.first
    · subst hkitem
      rw [hit_append, hit_passed hasc, Option.none_or, hit_cons_self]
      refine ⟨?_, by simp⟩
      cases hs : seen item.first with
      | none => exact live_eq_none_iff.mpr hdeleted
      | some y => rw [Option.some_or, ← hs, hlive]
    · rw [hit_snoc_of_ne hkitem, List.mem_cons, or_iff_right hkitem]
      exact h.hidden k hk hc
  · obtain ⟨hlt, x, hx, hrest⟩ := h.found c hc
    refine ⟨hlt, x, ?_, hrest⟩
    rw [hit_append, ← Option.or_assoc, hx, Option.some_or]

theorem Passed.skip {y : Item K V} (hy : seen item.first = some y) :
    t.Passed key (fun k => (seen k).or (hit Item.first k (pre ++ [item]))) b := by
  refine h.congr (fun k hk hc => ?_) fun c hc x hx => ?_
  · by_cases hkitem : k = item.first
    · rw [hkitem, hy, Option.some_or, Option.some_or]
    · rw [hit_snoc_of_ne hkitem]
  · rw [hit_append, ← Option.or_assoc, hx, Option.some_or]

theorem Passed.best (hasc : Ascending (pre ++ item :: items)) (hkey : key < item.first)
    (hunder : ∀ c ∈ b.lb, item.first < c.2) (hseen : seen item.first = none)
    (hdeleted : item.deleted = false) (hderef : t.deref c = .ok item) :
    t.Passed key (fun k => (seen k).or (hit Item.first k (pre ++ item :: items)))
      { b with lb := some (c, item.first) } := by
  refine ⟨fun k hk hc => ?_, fun c hc => ?_⟩
  · have hlt : k < item.first := hc _ rfl
    rw [hit_of_lt hasc hlt]
    exact h.hidden k hk fun c hc => hlt.trans (hunder c hc)
  · obtain rfl := Option.some.inj hc
    refine ⟨hkey, item, ?_, hdeleted, hderef⟩
    rw [hseen, Option.none_or, hit_item hasc]

end Pass

theorem passLevel_spec (hlevel : t.levels[j]? = some level) (hasc : Ascending level)
    (hsplit : level = pre ++ items) (hge : ∀ item ∈ items, key ≤ item.first)
    (h : t.Passed key (fun k => (seen k).or (hit Item.first k pre)) b) :
    (∃ c b', passLevel key (t.minLevel + j) items pre.length b = (some c, b') ∧
      ∃ x, x.first = key ∧ (seen key).or (hit Item.first key level) = some x ∧
        x.deleted = false ∧ t.deref c = .ok x) ∨
    ∃ b', passLevel key (t.minLevel + j) items pre.length b = (none, b') ∧
      t.Passed key (fun k => (seen k).or (hit Item.first k level)) b' := by
  induction items generalizing pre b with
  | nil =>
    rw [List.append_nil] at hsplit
    exact .inr ⟨b, rfl, hsplit ▸ h⟩
  | cons item items ih =>
    have hkey : key ≤ item.first := hge item List.mem_cons_self
    have hrest : ∀ z ∈ items, key ≤ z.first := fun z hz => hge z (List.mem_cons_of_mem _ hz)
    have hsnoc : level = pre ++ [item] ++ items := by
      rw [hsplit, List.append_assoc, List.singleton_append]
    have hlength : pre.length + 1 = (pre ++ [item]).length := by
      rw [List.length_append, List.length_singleton]
    have hderef : t.deref ⟨t.minLevel + j, pre.length⟩ = .ok item := by
      refine deref_eq hlevel ?_
      rw [hsplit, List.getElem?_append_right le_rfl, Nat.sub_self]
      rfl
    have hasc' : Ascending (pre ++ item :: items) := hsplit ▸ hasc
    rw [passLevel]
    split
    case isFalse hstop => exact .inr ⟨b, rfl, hsplit ▸ h.stop hasc' hstop⟩
    case isTrue hgo =>
      have hunder : ∀ c ∈ b.lb, item.first < c.2 := by
        intro c hc
        rw [Option.mem_def.mp hc, Option.all_some, decide_eq_true_eq] at hgo
        exact hgo
      -- a key is among the deleted ones when a newer level has it
      obtain ⟨-, hmem⟩ := h.hidden item.first hkey hunder
      rw [hit_passed hasc', Option.or_none] at hmem
      split
      case isTrue hdeleted =>
        rw [hlength]
        exact ih hsnoc hrest (h.bury hasc' hkey hunder hdeleted)
      case isFalse hlive =>
        rw [Bool.not_eq_true] at hlive
        split
        case isTrue hfresh =>
          have hseen : seen item.first = none := by
            rwa [all_ne_iff, hmem, Bool.not_eq_true, Option.isSome_eq_false_iff,
              Option.isNone_iff_eq_none] at hfresh
          split
          case isTrue heq =>
            refine .inl ⟨_, b, rfl, item, heq, ?_, hlive, hderef⟩
            rw [← heq, hseen, Option.none_or, hsplit, hit_item hasc']
          case isFalse hne =>
            have hlt : key < item.first := lt_of_le_of_ne hkey (Ne.symm hne)
            exact .inr ⟨_, rfl, hsplit ▸ h.best hasc' hlt hunder hseen hlive hderef⟩
        case isFalse hold =>
          rw [all_ne_iff, not_not, hmem] at hold
          obtain ⟨y, hy⟩ := Option.isSome_iff_exists.mp hold
          rw [hlength]
          exact ih hsnoc hrest (h.skip hy)

variable [OrderTop K] {search : List K → K → Except Stop (ℕ × ℕ)} {inside : Set K} {limit : ℕ}

theorem lowerBoundFrom_spec (h : t.Valid) (hsearch : t.Searchable inside limit search)
    (hkey : key ∈ inside) {n : ℕ} (hlen : j + n ≤ t.levels.length)
    (hpassed : t.Passed key (fun k => hitFirst Item.first k (t.levels.take j)) b) :
    ∃ c, t.lowerBoundFrom search key n (t.minLevel + j) b = .ok c ∧
      match c with
      | none => ∀ k, key ≤ k → live (hitFirst Item.first k (t.levels.take (j + n))) = none
      | some c => ∃ x, t.deref c = .ok x ∧ x.deleted = false ∧ key ≤ x.first ∧
          hitFirst Item.first x.first (t.levels.take (j + n)) = some x ∧
          ∀ k, key ≤ k → k < x.first →
            live (hitFirst Item.first k (t.levels.take (j + n))) = none := by
  induction n generalizing j b with
  | zero =>
    refine ⟨b.lb.map (·.1), rfl, ?_⟩
    rw [Nat.add_zero]
    cases hlb : b.lb with
    | none =>
      exact fun k hk => (hpassed.hidden k hk (by simp [hlb])).1
    | some c =>
      obtain ⟨hlt, x, hx, hdeleted, hderef⟩ := hpassed.found c hlb
      obtain ⟨c, k⟩ := c
      obtain rfl : x.first = k := by
        obtain ⟨level, -, hhit⟩ := List.exists_of_findSome?_eq_some hx
        simpa using List.find?_some hhit
      refine ⟨x, hderef, hdeleted, hlt.le, hx, fun k hk hkx => ?_⟩
      refine (hpassed.hidden k hk fun c' hc' => ?_).1
      obtain rfl := Option.some.inj (hlb.symm.trans hc')
      exact hkx
  | succ n ih =>
    have hget := List.getElem?_eq_getElem (show j < t.levels.length by omega)
    generalize t.levels[j] = level at hget
    have htake : ∀ k, hitFirst Item.first k (t.levels.take (j + 1)) =
        (hitFirst Item.first k (t.levels.take j)).or (hit Item.first k level) := by
      intro k
      rw [List.take_add_one, hget, Option.toList_some, hitFirst_append, hitFirst_cons,
        hitFirst_nil, Option.or_none]
    have hasc := h.ascending level (List.mem_of_getElem? hget)
    rw [lowerBoundFrom, level_eq_ok.mpr hget]
    simp only [bind, Except.bind]
    have hgo : ∀ b', t.Passed key (fun k => hitFirst Item.first k (t.levels.take (j + 1))) b' →
        ∃ c, t.lowerBoundFrom search key n (t.minLevel + j + 1) b' = .ok c ∧ _ := fun b' hb' => by
      have := ih (j := j + 1) (by omega) hb'
      rwa [Nat.add_right_comm j 1 n] at this
    split
    case isTrue hempty =>
      obtain rfl := List.isEmpty_iff.mp hempty
      refine hgo b (hpassed.congr (fun k hk hc => ?_) fun c hc x hx => ?_)
      · rw [htake, hit_nil, Option.or_none]
      · rw [htake, hx, Option.some_or]
    case isFalse hne =>
      obtain ⟨w, hwindow, hlo, hhi, hle⟩ :=
        window_spec h hsearch hget (by simpa using hne) hkey
      rw [hwindow]
      simp only
      rw [lowerBoundBl_eq hasc hlo (rank_le_rankAbove.trans hhi) hle]
      simp only
      have hinitial : (level.take (rank Item.first key level)).length = rank Item.first key level :=
        List.length_take_of_le rank_le_length
      have hpass := @passLevel_spec _ _ _ _ _ _ _
        (fun k => hitFirst Item.first k (t.levels.take j)) b _ _ _ _ hget hasc
        (List.take_append_drop (rank Item.first key level) level).symm
        (fun item hitem => hasc.le_of_mem_drop hitem)
        (hpassed.congr (fun k hk hc => by
          rw [hit_eq_none.mpr fun z hz => ((hasc.lt_of_mem_take hz).trans_le hk).ne,
            Option.or_none]) fun c hc x hx => by rw [hx, Option.some_or])
      rw [hinitial] at hpass
      obtain ⟨c, b', hrun, x, hx, hhit, hdeleted, hderef⟩ | ⟨b', hrun, hb'⟩ := hpass
      · rw [hrun]
        refine ⟨some c, rfl, x, hderef, hdeleted, hx.ge, ?_, fun k hk hkx => ?_⟩
        · rw [hx, ← List.take_append_drop (j + 1) (t.levels.take (j + (n + 1))),
            List.take_take, min_eq_left (by omega), hitFirst_append, htake, hhit, Option.some_or]
        · exact absurd (hk.trans_lt hkx) (hx ▸ lt_irrefl _)
      · rw [hrun]
        refine hgo b' (hb'.congr (fun k _ _ => htake k) fun c hc x hx => ?_)
        rw [htake]
        exact hx

theorem lowerBound_spec (h : t.Valid) (hsearch : t.Searchable inside limit search)
    (hkey : key ∈ inside) :
    ∃ c, t.lowerBound search key = .ok c ∧
      match c with
      | none => IsFirst (view t.levels) (key ≤ ·) none
      | some c => ∃ x, t.deref c = .ok x ∧
          IsFirst (view t.levels) (key ≤ ·) (some (x.first, x.second)) := by
  have hmin := h.used
  have hroom := h.room
  obtain ⟨c, hrun, hc⟩ := lowerBoundFrom_spec (j := 0) (n := t.usedLevels - t.minLevel) (b := {})
    h hsearch hkey (by omega)
    ⟨fun k hk hc => by simp [live], fun c hc => by cases hc⟩
  refine ⟨c, hrun, ?_⟩
  rw [Nat.zero_add] at hc
  cases c with
  | none => exact fun k hk => (view_take h k).trans (hc k hk)
  | some c =>
    obtain ⟨x, hderef, hdeleted, hle, hhit, hnone⟩ := hc
    refine ⟨x, hderef, hle, ?_, fun k hk hkx => (view_take h k).trans (hnone k hk hkx)⟩
    rw [view_take h, hhit, live_of_not_deleted hdeleted]

end LearnedIndexFramework.Pgm.DynamicPgm
