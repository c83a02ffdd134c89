import LearnedIndexFramework.Pgm.Insert

/-! Which items the container holds, and what a lookup finds. -/

namespace LearnedIndexFramework.Pgm

open Lib

variable {K V : Type} [LinearOrder K]

def Brackets (inside : Set K) (limit : ℕ) (search : List K → K → Except Stop (ℕ × ℕ)) : Prop :=
  ∀ keys key, keys.Pairwise (· < ·) → keys ≠ [] → keys.length ≤ limit → (∀ k ∈ keys, k ∈ inside) →
    key ∈ inside → ∃ lo hi, search keys key = .ok (lo, hi) ∧ lo ≤ rank id key keys ∧
      rankAbove id key keys ≤ hi ∧ hi ≤ keys.length

theorem rank_map_first (k : K) (items : List (Item K V)) :
    rank id k (items.map Item.first) = rank Item.first k items := by
  rw [rank, rank, List.countP_map]
  rfl

theorem rankAbove_map_first (k : K) (items : List (Item K V)) :
    rankAbove id k (items.map Item.first) = rankAbove Item.first k items := by
  rw [rankAbove, rankAbove, List.countP_map]
  rfl

namespace DynamicPgm

section Held

variable [DecidableEq V] [Top V] {t t' : DynamicPgm K V} {item newItem : Item K V}
  {items tmp tmp' : List (Item K V)} {i : ℕ}

def Holds (t : DynamicPgm K V) (item : Item K V) : Prop := ∃ level ∈ t.levels, item ∈ level

omit [LinearOrder K] [DecidableEq V] [Top V] in
theorem holds_of_level (hlevel : t.level i = .ok items) (hitem : item ∈ items) : t.Holds item := by
  rw [level] at hlevel
  cases hget : t.levels[i - t.minLevel]? with
  | none =>
    rw [hget] at hlevel
    cases hlevel
  | some level =>
    rw [hget] at hlevel
    cases hlevel
    exact ⟨items, List.mem_of_getElem? hget, hitem⟩

omit [LinearOrder K] [DecidableEq V] [Top V] in
theorem holds_setLevel (hset : t.setLevel i items = .ok t') (h : t'.Holds item) :
    t.Holds item ∨ item ∈ items := by
  rw [setLevel] at hset
  split at hset
  · cases hset
    obtain ⟨level, hlevel, hitem⟩ := h
    rcases List.mem_or_eq_of_mem_set hlevel with hlevel | rfl
    · exact .inl ⟨level, hlevel, hitem⟩
    · exact .inr hitem
  · cases hset

omit [LinearOrder K] [DecidableEq V] [Top V] in
theorem levels_buildPgm {keys : Option (List K)} (hbuild : t.buildPgm i keys = .ok t') :
    t'.levels = t.levels := by
  rw [buildPgm] at hbuild
  split at hbuild
  · rw [setPgm] at hbuild
    split at hbuild
    · cases hbuild
      rfl
    · cases hbuild
  · cases hbuild
    rfl

theorem holds_mergeLevels {size n : ℕ} (hmerge : mergeLevels size n i tmp t = .ok (tmp', t')) :
    (∀ item ∈ tmp', item ∈ tmp ∨ t.Holds item) ∧ ∀ item, t'.Holds item → t.Holds item := by
  induction n generalizing i tmp t with
  | zero =>
    cases hmerge
    exact ⟨fun item h => .inl h, fun item h => h⟩
  | succ n ih =>
    obtain ⟨level, hlevel, hmerge⟩ := bind_eq_ok.mp hmerge
    dsimp only at hmerge
    split at hmerge
    · cases hmerge
    · obtain ⟨t₁, hset, hmerge⟩ := bind_eq_ok.mp hmerge
      obtain ⟨t₂, hbuild, hmerge⟩ := bind_eq_ok.mp hmerge
      obtain ⟨htmp, hrest⟩ := ih hmerge
      have hholds : ∀ item, t₂.Holds item → t.Holds item := by
        intro item h
        rw [Holds, levels_buildPgm hbuild] at h
        exact (holds_setLevel hset h).resolve_right List.not_mem_nil
      refine ⟨fun item hitem => ?_, fun item h => hholds item (hrest item h)⟩
      rcases htmp item hitem with hitem | h
      · exact (mem_of_mem_merge hitem).imp_right (holds_of_level hlevel)
      · exact .inr (hholds item h)

theorem holds_pairwiseMerge {target sizeHint insertionPoint : ℕ}
    (hmerge : t.pairwiseMerge newItem target sizeHint insertionPoint = .ok t')
    (h : t'.Holds item) : item = newItem ∨ t.Holds item := by
  obtain ⟨buffer, hbuffer, hmerge⟩ := bind_eq_ok.mp hmerge
  obtain ⟨old, hold, hmerge⟩ := bind_eq_ok.mp hmerge
  dsimp only at hmerge
  split at hmerge
  · cases hmerge
  · obtain ⟨⟨tmp, t₁⟩, hlevels, hmerge⟩ := bind_eq_ok.mp hmerge
    obtain ⟨t₂, hclear, hmerge⟩ := bind_eq_ok.mp hmerge
    obtain ⟨t₃, hset, hbuild⟩ := bind_eq_ok.mp hmerge
    obtain ⟨htmp, hrest⟩ := holds_mergeLevels hlevels
    rw [Holds, levels_buildPgm hbuild] at h
    rcases holds_setLevel hset h with h | hitem
    · exact .inr (hrest item ((holds_setLevel hclear h).resolve_right List.not_mem_nil))
    · rcases htmp item hitem with hitem | h
      · rcases List.mem_append.mp hitem with hitem | hitem
        · exact .inr (holds_of_level hbuffer (List.mem_of_mem_take hitem))
        · exact (List.mem_cons.mp hitem).imp_right fun hitem =>
            holds_of_level hbuffer (List.mem_of_mem_drop hitem)
      · exact .inr h

theorem holds_insertBelow {insertionPoint : ℕ}
    (hinsert : t.insertBelow newItem insertionPoint = .ok t') (h : t'.Holds item) :
    item = newItem ∨ t.Holds item := by
  obtain ⟨⟨target, slots⟩, -, hmerge⟩ := bind_eq_ok.mp hinsert
  dsimp only at hmerge
  refine (holds_pairwiseMerge hmerge h).imp_right fun h => ?_
  split at h
  · obtain ⟨level, hlevel, hitem⟩ := h
    rcases List.mem_append.mp hlevel with hlevel | hlevel
    · exact ⟨level, hlevel, hitem⟩
    · obtain rfl := List.mem_singleton.mp hlevel
      exact absurd hitem List.not_mem_nil
  · exact h

theorem holds_insert (hinsert : t.insert newItem = .ok t') (h : t'.Holds item) :
    item = newItem ∨ t.Holds item := by
  obtain ⟨buffer, hbuffer, hinsert⟩ := bind_eq_ok.mp hinsert
  obtain ⟨pos, -, hinsert⟩ := bind_eq_ok.mp hinsert
  rw [insertAt] at hinsert
  split at hinsert
  · rcases holds_setLevel hinsert h with h | hitem
    · exact .inr h
    · rcases List.mem_or_eq_of_mem_set hitem with hitem | rfl
      · exact .inr (holds_of_level hbuffer hitem)
      · exact .inl rfl
  · split at hinsert
    · obtain ⟨t₁, hset, hret⟩ := bind_eq_ok.mp hinsert
      cases hret
      rcases holds_setLevel hset h with h | hitem
      · exact .inr h
      · rcases List.mem_append.mp hitem with hitem | hitem
        · exact .inr (holds_of_level hbuffer (List.mem_of_mem_take hitem))
        · exact (List.mem_cons.mp hitem).imp_right fun hitem =>
            holds_of_level hbuffer (List.mem_of_mem_drop hitem)
    · exact holds_insertBelow hinsert h

end Held

section Find

variable [OrderTop K] {search : List K → K → Except Stop (ℕ × ℕ)} {t : DynamicPgm K V} {key : K}
  {inside : Set K} {limit : ℕ} {items : List (Item K V)} {j : ℕ}

structure Searchable (inside : Set K) (limit : ℕ) (search : List K → K → Except Stop (ℕ × ℕ))
    (t : DynamicPgm K V) : Prop where
  lt_top : ∀ k ∈ inside, k < ⊤
  mem : ∀ item, t.Holds item → item.first ∈ inside
  total_le : t.total ≤ limit
  brackets : t.minIndexLevel < t.usedLevels → Brackets inside limit search

omit [LinearOrder K] [OrderTop K] in
theorem length_le_total {level : List (Item K V)} (h : level ∈ t.levels) :
    level.length ≤ t.total := by
  rw [total]
  exact (List.sublist_flatten_of_mem h).length_le

theorem window_spec (h : t.Valid) (hsearch : t.Searchable inside limit search)
    (hitems : t.levels[j]? = some items) (hne : items ≠ []) (hkey : key ∈ inside) :
    ∃ w, t.window search (t.minLevel + j) items key = .ok w ∧
      w.1 ≤ rank Item.first key items ∧ rankAbove Item.first key items ≤ w.2 ∧
      w.2 ≤ items.length := by
  rw [window]
  split
  · next hhas =>
    have hle : t.minIndexLevel ≤ t.minLevel + j := by simpa [hasPgm] using hhas
    have hpgm := h.synced j items hitems hle hne
    have hasc := h.ascending items (List.mem_of_getElem? hitems)
    have hsorted : (items.map Item.first).Pairwise (· < ·) := List.pairwise_map.mpr hasc
    have hne' : items.map Item.first ≠ [] := by simpa using hne
    have hinside : ∀ k ∈ items.map Item.first, k ∈ inside := by
      intro k hk
      obtain ⟨item, hitem, rfl⟩ := List.mem_map.mp hk
      exact hsearch.mem item ⟨items, List.mem_of_getElem? hitems, hitem⟩
    have hlength : (items.map Item.first).length ≤ limit := by
      rw [List.length_map]
      exact (length_le_total (List.mem_of_getElem? hitems)).trans hsearch.total_le
    have hused : t.minIndexLevel < t.usedLevels := by
      by_contra hge
      exact hne (eq_nil_of_unused h (by omega) hitems)
    obtain ⟨lo, hi, hrun, hlo, hhi, hle'⟩ :=
      hsearch.brackets hused _ key hsorted hne' hlength hinside hkey
    refine ⟨(lo, hi), ?_, ?_, ?_, hle'.trans (List.length_map _).le⟩
    · rw [pgm, hpgm]
      exact hrun
    · rwa [← rank_map_first]
    · rwa [← rankAbove_map_first]
  · exact ⟨(0, items.length), rfl, Nat.zero_le _, rankAbove_le_length, le_rfl⟩

omit [LinearOrder K] [OrderTop K] in
theorem deref_eq {pos : ℕ} {item : Item K V} (hitems : t.levels[j]? = some items)
    (hitem : items[pos]? = some item) : t.deref ⟨t.minLevel + j, pos⟩ = .ok item := by
  rw [deref, level_eq_ok.mpr hitems]
  simp only [bind, Except.bind, hitem, orUndefined]

variable [DecidableEq V] [Top V]

def Denotes (t : DynamicPgm K V) : Option Cursor → Option (Item K V) → Prop
  | none, item => live item = none
  | some c, item => ∃ x, item = some x ∧ x.deleted = false ∧ t.deref c = .ok x

theorem findFrom_spec (h : t.Valid) (hsearch : t.Searchable inside limit search)
    (hkey : key ∈ inside) {n : ℕ} (hlen : j + n ≤ t.levels.length) :
    ∃ c, t.findFrom search key n (t.minLevel + j) = .ok c ∧
      t.Denotes c (hitFirst Item.first key ((t.levels.drop j).take n)) := by
  induction n generalizing j with
  | zero => exact ⟨none, rfl, rfl⟩
  | succ n ih =>
    have hget := List.getElem?_eq_getElem (show j < t.levels.length by omega)
    generalize t.levels[j] = items at hget
    have hdrop : t.levels.drop j = items :: t.levels.drop (j + 1) := by
      obtain ⟨hlt, rfl⟩ := List.getElem?_eq_some_iff.mp hget
      exact List.drop_eq_getElem_cons hlt
    have hasc := h.ascending items (List.mem_of_getElem? hget)
    obtain ⟨c, hrest, hdenotes⟩ := ih (j := j + 1) (by omega)
    rw [hdrop, List.take_succ_cons, hitFirst_cons, hasc.hit_eq]
    rw [findFrom, level_eq_ok.mpr hget]
    simp only [bind, Except.bind]
    split
    · next hempty =>
      obtain rfl := List.isEmpty_iff.mp hempty
      exact ⟨c, hrest, hdenotes⟩
    · next hne =>
      obtain ⟨w, hwindow, hlo, hhi, hle⟩ :=
        window_spec h hsearch hget (by simpa using hne) hkey
      rw [hwindow]
      simp only
      rw [lowerBoundBl_eq hasc hlo (rank_le_rankAbove.trans hhi) hle]
      simp only
      split
      · next hend =>
        rw [hend, List.getElem?_eq_none le_rfl]
        exact ⟨c, hrest, hdenotes⟩
      · next hin =>
        have hlt : rank Item.first key items < items.length :=
          lt_of_le_of_ne rank_le_length hin
        have hitem := List.getElem?_eq_getElem hlt
        generalize items[rank Item.first key items] = item at hitem
        rw [hitem]
        simp only [orUndefined, Option.filter_some]
        split
        · next hfirst =>
          rw [decide_eq_true hfirst, if_pos rfl, Option.some_or]
          split
          · next hdeleted => exact ⟨none, rfl, by simp [Denotes, live, hdeleted]⟩
          · next hdeleted =>
            exact ⟨_, rfl, item, rfl, Bool.eq_false_iff.mpr hdeleted, deref_eq hget hitem⟩
        · next hfirst =>
          rw [decide_eq_false hfirst, if_neg Bool.false_ne_true, Option.none_or]
          exact ⟨c, hrest, hdenotes⟩

theorem get_eq (h : t.Valid) (hsearch : t.Searchable inside limit search) (hkey : key ∈ inside) :
    t.get search key = .ok (view t.levels key) := by
  have hmin := h.used
  have hroom := h.room
  obtain ⟨c, hfind, hdenotes⟩ := findFrom_spec (j := 0) (n := t.usedLevels - t.minLevel)
    h hsearch hkey (by omega)
  rw [List.drop_zero] at hdenotes
  rw [get, find]
  refine bind_eq_ok.mpr ⟨c, hfind, ?_⟩
  rw [view_take h]
  cases c with
  | none =>
    rw [hdenotes]
    rfl
  | some c =>
    obtain ⟨item, hitem, hdeleted, hderef⟩ := hdenotes
    rw [hitem, live_of_not_deleted hdeleted]
    exact bind_eq_ok.mpr ⟨item, hderef, rfl⟩

end Find

end DynamicPgm

end LearnedIndexFramework.Pgm
