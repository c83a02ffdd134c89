import LearnedIndexFramework.Pgm.StaticBuild

/-! A search of the static index goes down to the segment of its key and brackets the key. -/

namespace LearnedIndexFramework.Pgm

open Lib LearnedIndexFramework.Metric

section IsLevel

variable {epsilon i : ℕ} {k : ℤ} {keys : List ℤ} {level : List Segment} {s : Segment}

structure Responsible (level : List Segment) (k : ℤ) (i : ℕ) (s next : Segment) : Prop where
  get : level[i]? = some s
  get_next : level[i + 1]? = some next
  le : s.key ≤ k
  lt : k < next.key

variable {next : Segment}

theorem IsLevel.pairwise (h : IsLevel epsilon keys level) (k : ℤ) :
    level.Pairwise fun s t => decide (t.key ≤ k) = true → decide (s.key ≤ k) = true := by
  refine (List.pairwise_map.mp h.sorted).imp fun hle ht => ?_
  rw [decide_eq_true_eq] at ht ⊢
  exact hle.trans ht

theorem IsLevel.exists_responsible (h : IsLevel epsilon keys level)
    (hfirst : ∃ x ∈ keys.head?, x ≤ k) (hk : k < maxKey) :
    ∃ i s next, Responsible level k i s next := by
  set c := level.countP fun s => s.key ≤ k with hc
  have hiff : ∀ (j : ℕ) (s : Segment), level[j]? = some s → (s.key ≤ k ↔ j < c) := fun j s hs => by
    rw [← countP_partition _ (h.pairwise k) hs, decide_eq_true_eq]
  have htwo := h.two_le
  have hpos : 0 < c := by
    obtain ⟨x, hx, hle⟩ := hfirst
    obtain ⟨s, hs, hkey⟩ := Option.map_eq_some_iff.mp (h.head.trans hx)
    rw [List.head?_eq_getElem?] at hs
    exact (hiff 0 s hs).mp (hkey ▸ hle)
  have hlt : c < level.length := by
    obtain ⟨s, hs, hkey⟩ := Option.map_eq_some_iff.mp h.last
    rw [List.getLast?_eq_getElem?] at hs
    have := mt (hiff _ s hs).mpr (by omega)
    omega
  have hget := List.getElem?_eq_getElem (show c - 1 < level.length by omega)
  have hnext := List.getElem?_eq_getElem hlt
  refine ⟨c - 1, _, _, hget, ?_, (hiff _ _ hget).mpr (by omega),
    not_le.mp (mt (hiff _ _ hnext).mp (lt_irrefl c))⟩
  rw [Nat.sub_add_cancel hpos]
  exact hnext

theorem Responsible.le_of_le (hr : Responsible level k i s next)
    (h : IsLevel epsilon keys level) {j : ℕ} {t : Segment} (hj : j ≤ i)
    (ht : level[j]? = some t) : t.key ≤ k := by
  have hlt := (countP_partition _ (h.pairwise k) hr.get).mp (decide_eq_true hr.le)
  exact of_decide_eq_true ((countP_partition _ (h.pairwise k) ht).mpr (by omega))

theorem Responsible.rank_le (hr : Responsible level k i s next)
    (h : IsLevel epsilon keys level) :
    rank id k (level.dropLast.map Segment.key) ≤ i + 1 := by
  have hle : rank id k (level.dropLast.map Segment.key) ≤
      level.countP fun s => s.key ≤ k := by
    rw [rank, List.countP_map]
    refine (level.dropLast_sublist.countP_le).trans (List.countP_mono_left fun s _ hs => ?_)
    rw [Function.comp_apply, decide_eq_true_eq] at hs
    exact decide_eq_true (le_of_lt hs)
  refine hle.trans ?_
  have hge := mt (countP_partition _ (h.pairwise k) hr.get_next).mpr
    (by rw [decide_eq_true_eq]; exact hr.lt.not_ge)
  omega

end IsLevel

namespace StaticPgm

section Descend

variable {t : StaticPgm} {k : ℤ} {data : List ℤ} {levels : List (List Segment)}
  {level : List Segment} {l i : ℕ} {s next : Segment}

structure Stands (t : StaticPgm) (data : List ℤ) (levels : List (List Segment)) : Prop where
  segments : t.segments = levels.flatten
  levelsOffsets : t.levelsOffsets = offsets levels
  tower : Tower data levels

theorem Tower.isLevel (h : Tower data levels) (hl : levels[l]? = some level) :
    ∃ epsilon keys, IsLevel epsilon keys level ∧ keys.head? = data.head? := by
  induction l generalizing level with
  | zero =>
    rw [← List.head?_eq_getElem?] at hl
    exact ⟨_, data, h.bottom level hl, rfl⟩
  | succ l ih =>
    have hlt := (List.getElem?_eq_some_iff.mp hl).1
    have hbelow := List.getElem?_eq_getElem (show l < levels.length by omega)
    obtain ⟨epsilon, keys, hlevel, hhead⟩ := ih hbelow
    refine ⟨_, _, h.upper l _ level hbelow hl, ?_⟩
    have htwo := hlevel.two_le
    have hdrop : (levels[l]).dropLast.head? = (levels[l]).head? := by
      rw [List.dropLast_eq_take, List.head?_take, if_neg (by omega)]
    rw [List.head?_map, hdrop, hlevel.head, hhead]

theorem Stands.getElem? (h : Stands t data levels) (hl : levels[l]? = some level)
    (hi : i < level.length) :
    t.segments[(levels.take l).flatten.length + i]? = level[i]? := by
  obtain ⟨hlt, rfl⟩ := List.getElem?_eq_some_iff.mp hl
  have hsplit : levels.flatten =
      (levels.take l).flatten ++ (levels[l] ++ (levels.drop (l + 1)).flatten) := by
    rw [← List.flatten_cons, ← List.drop_eq_getElem_cons hlt, ← List.flatten_append,
      List.take_append_drop]
  rw [h.segments, hsplit, List.getElem?_append_right (by omega), Nat.add_sub_cancel_left,
    List.getElem?_append_left hi]

theorem approximate_eq {it : ℕ} (hs : t.segments[it]? = some s)
    (hnext : t.segments[it + 1]? = some next) (hfits : s.product k < 2 ^ 63) :
    t.approximate k it = .ok (position s next k) := by
  rw [approximate, hs, hnext]
  simp only [orUndefined, bind, Except.bind, Segment.predict, if_neg hfits.not_ge]
  rfl

theorem linearSearch_spec (h : Stands t data levels) (hl : levels[l]? = some level)
    {epsilon : ℕ} {keys : List ℤ} (hlevel : IsLevel epsilon keys level)
    (hr : Responsible level k i s next) {j fuel : ℕ} (hj : j ≤ i) (hfuel : i - j < fuel) :
    t.linearSearch k fuel ((levels.take l).flatten.length + j) =
      .ok ((levels.take l).flatten.length + i) := by
  have hlt := (List.getElem?_eq_some_iff.mp hr.get_next).1
  induction fuel generalizing j with
  | zero => omega
  | succ fuel ih =>
    have hin : j + 1 < level.length := by omega
    have hget := (h.getElem? hl hin).trans (List.getElem?_eq_getElem hin)
    rw [linearSearch, Nat.add_assoc, hget]
    simp only [orUndefined, bind, Except.bind]
    rcases Nat.lt_or_ge j i with hlt' | hge
    · rw [if_pos (hr.le_of_le hlevel hlt' (List.getElem?_eq_getElem _))]
      exact ih hlt' (by omega)
    · obtain rfl : j = i := by omega
      have hnext := hr.get_next
      rw [List.getElem?_eq_getElem hin, Option.some_inj] at hnext
      rw [hnext, if_neg hr.lt.not_ge]
      rfl

theorem descend_spec (h : Stands t data levels) (hfirst : ∃ x ∈ data.head?, x ≤ k)
    (hk : k < maxKey) (hfits : ∀ s ∈ t.segments, s.key ≤ k → s.product k < 2 ^ 63)
    (hl : levels[l]? = some level) (hr : Responsible level k i s next) :
    ∃ bottom i' s' next', levels[0]? = some bottom ∧ Responsible bottom k i' s' next' ∧
      t.descend k l ((levels.take l).flatten.length + i) = .ok i' := by
  induction l generalizing level i s next with
  | zero => exact ⟨level, i, s, next, hl, hr, by simp [descend]⟩
  | succ l ih =>
    have hlt := (List.getElem?_eq_some_iff.mp hl).1
    have hbelow := List.getElem?_eq_getElem (show l < levels.length by omega)
    generalize levels[l] = below at hbelow
    obtain ⟨epsilon, keys, hlevel, hhead⟩ := h.tower.isLevel hbelow
    obtain ⟨j, s', next', hr'⟩ := hlevel.exists_responsible (hhead ▸ hfirst) hk
    have hlen := (List.getElem?_eq_some_iff.mp hr.get_next).1
    have hlen' := (List.getElem?_eq_some_iff.mp hr'.get_next).1
    have hs := (h.getElem? hl (show i < level.length by omega)).trans hr.get
    have hnext := (h.getElem? hl hlen).trans hr.get_next
    rw [← Nat.add_assoc] at hnext
    have hposition := (h.tower.upper l below level hbelow hl).position_le i s next k hr.get
      hr.get_next hr.le hr.lt (by rw [maxKey] at hk; omega)
    have hrank := hr'.rank_le hlevel
    obtain ⟨bottom, i', s'', next'', hbottom, hresponsible, hrun⟩ := ih hbelow hr'
    refine ⟨bottom, i', s'', next'', hbottom, hresponsible, ?_⟩
    have htotal : below.length ≤ t.segments.length := by
      rw [h.segments]
      exact (List.sublist_flatten_of_mem (List.mem_of_getElem? hbelow)).length_le
    rw [descend, h.levelsOffsets, getElem?_offsets (by omega),
      approximate_eq hs hnext (hfits s (List.mem_of_getElem? hs) hr.le)]
    simp only [orUndefined, bind, Except.bind]
    rw [linearSearch_spec h hbelow hlevel hr' (by omega) (by omega)]
    exact hrun

theorem exists_level (h : Stands t data levels) (hs : s ∈ t.segments) :
    ∃ epsilon keys level, IsLevel epsilon keys level ∧ keys.head? = data.head? ∧ s ∈ level := by
  rw [h.segments] at hs
  obtain ⟨level, hlevel, hs⟩ := List.mem_flatten.mp hs
  obtain ⟨l, hl⟩ := List.mem_iff_getElem?.mp hlevel
  obtain ⟨epsilon, keys, hlevel, hhead⟩ := h.tower.isLevel hl
  exact ⟨epsilon, keys, level, hlevel, hhead, hs⟩

theorem IsLevel.head_le {epsilon : ℕ} {keys : List ℤ} (h : IsLevel epsilon keys level)
    (hs : s ∈ level) : ∀ x ∈ keys.head?, x ≤ s.key := by
  intro x hx
  rw [← h.head] at hx
  obtain ⟨first, hfirst, rfl⟩ := Option.map_eq_some_iff.mp hx
  obtain ⟨rest, rfl⟩ := List.head?_eq_some_iff.mp hfirst
  rcases List.mem_cons.mp hs with rfl | hs
  · exact le_rfl
  · exact (List.pairwise_cons.mp h.sorted).1 _ (List.mem_map_of_mem hs)

theorem segmentForKey_spec {init : List (List Segment)} {top : List Segment}
    (h : Stands t data (init ++ [top])) (htop : top.length = 2)
    (hfirst : ∃ x ∈ data.head?, x ≤ k) (hk : k < maxKey)
    (hfits : ∀ s ∈ t.segments, s.key ≤ k → s.product k < 2 ^ 63) :
    ∃ bottom i s next, (init ++ [top])[0]? = some bottom ∧ Responsible bottom k i s next ∧
      t.segmentForKey k = .ok i := by
  have hl : (init ++ [top])[init.length]? = some top := List.getElem?_concat_length
  obtain ⟨epsilon, keys, hlevel, hhead⟩ := h.tower.isLevel hl
  obtain ⟨i, s, next, hr⟩ := hlevel.exists_responsible (hhead ▸ hfirst) hk
  have hlt := (List.getElem?_eq_some_iff.mp hr.get_next).1
  obtain rfl : i = 0 := by omega
  obtain ⟨bottom, i', s', next', hbottom, hr', hrun⟩ := descend_spec h hfirst hk hfits hl hr
  refine ⟨bottom, i', s', next', hbottom, hr', ?_⟩
  have hlength : (offsets (init ++ [top])).length = init.length + 2 := by simp
  rw [segmentForKey, h.levelsOffsets, if_neg (by omega), hlength, Nat.add_sub_cancel,
    getElem?_offsets (by simp)]
  exact hrun

theorem search_spec {init : List (List Segment)} {top : List Segment} {firstKey key : ℤ}
    (h : Stands t data (init ++ [top])) (htop : top.length = 2) (hsorted : data.Pairwise (· < ·))
    (hfirst : data.head? = some firstKey) (ht : t.firstKey = firstKey) (hn : t.n = data.length)
    (hmax : max firstKey key < maxKey)
    (hfits : ∀ s ∈ t.segments, s.key ≤ max firstKey key → s.product (max firstKey key) < 2 ^ 63) :
    ∃ r, t.search key = .ok r ∧ r.lo ≤ rank id key data ∧ rankAbove id key data ≤ r.hi ∧
      r.hi ≤ data.length ∧ r.hi ≤ r.lo + 34 := by
  set k := max firstKey key with hk
  obtain ⟨bottom, i, s, next, hbottom, hr, hrun⟩ :=
    segmentForKey_spec h htop ⟨firstKey, hfirst, le_max_left _ _⟩ hmax hfits
  have hlevel := h.tower.bottom bottom (by rw [List.head?_eq_getElem?]; exact hbottom)
  have hlt := (List.getElem?_eq_some_iff.mp hr.get_next).1
  have hs := (h.getElem? hbottom (show i < bottom.length by omega)).trans hr.get
  have hnext := (h.getElem? hbottom hlt).trans hr.get_next
  rw [List.take_zero, List.flatten_nil, List.length_nil, Nat.zero_add] at hs hnext
  have hsmall : k < 2 ^ 64 := by
    rw [maxKey] at hmax
    omega
  have hle := hlevel.position_le i s next k hr.get hr.get_next hr.le hr.lt hsmall
  have hge := hlevel.le_position hsorted i s next k hr.get hr.get_next hr.le hr.lt hsmall
  have happroximate := approximate_eq hs hnext (hfits s (List.mem_of_getElem? hs) hr.le)
  generalize position s next k = pos at hle hge happroximate
  refine ⟨⟨pos, pos - epsilon,
    if data.length ≤ pos + epsilon + 2 then data.length else pos + epsilon + 2⟩, ?_, ?_⟩
  · rw [search, ht, hn, ← hk, hrun]
    simp only [bind, Except.bind, happroximate]
    rfl
  · have hrank : rank id k data ≤ rank id key data ∧
        rankAbove id key data ≤ rankAbove id k data := by
      rcases le_total firstKey key with hle | hge
      · rw [hk, max_eq_right hle]
        exact ⟨le_rfl, le_rfl⟩
      · rw [hk, max_eq_left hge]
        have hzero : rank id firstKey data = 0 := by
          rw [rank, List.countP_eq_zero]
          obtain ⟨rest, rfl⟩ := List.head?_eq_some_iff.mp hfirst
          intro x hx
          rw [decide_eq_true_eq, id, not_lt]
          rcases List.mem_cons.mp hx with rfl | hx
          · exact le_rfl
          · exact ((List.pairwise_cons.mp hsorted).1 x hx).le
        refine ⟨hzero ▸ Nat.zero_le _, List.countP_mono_left fun x _ hx => ?_⟩
        rw [decide_eq_true_eq] at hx ⊢
        exact hx.trans hge
    have hlen : rankAbove id key data ≤ data.length := rankAbove_le_length
    have hepsilon : epsilon = 16 := rfl
    by_cases hend : data.length ≤ pos + epsilon + 2
    · simp only [if_pos hend]
      omega
    · simp only [if_neg hend]
      omega

theorem Stands.product_lt {firstKey key : ℤ} (h : Stands t data levels)
    (hfirst : data.head? = some firstKey) (hnear : max firstKey key < firstKey + 2 ^ 57) :
    ∀ s ∈ t.segments, s.key ≤ max firstKey key → s.product (max firstKey key) < 2 ^ 63 := by
  intro s hs hle
  obtain ⟨epsilon, keys, level, hlevel, hhead, hs⟩ := exists_level h hs
  have hge := IsLevel.head_le hlevel hs firstKey (hhead.trans hfirst)
  exact hlevel.product_lt s hs _ hle (by omega)

end Descend

section Built

variable {parallelism : ℕ} {keys : List ℤ}

theorem exists_stands (hparallelism : 0 < parallelism) (htwenty : parallelism ≤ 20)
    (hsorted : keys.Pairwise (· < ·)) (hne : keys ≠ [])
    (hkeys : ∀ x ∈ keys, 0 ≤ x ∧ x < maxKey) (hlength : keys.length ≤ 2 ^ 26)
    (hnarrow : ∀ run, run <:+: ranked 0 keys → FitsBands .uint64 epsilon run →
      run.length + 2 * epsilon ≤ 5 * 2 ^ 19) :
    ∃ firstKey t init top, keys.head? = some firstKey ∧ firstKey < maxKey ∧
      build parallelism keys = .ok t ∧ t.n = keys.length ∧ t.firstKey = firstKey ∧
      Stands t keys (init ++ [top]) ∧ top.length = 2 := by
  obtain ⟨firstKey, init, top, hhead, hbuild, htower, htop⟩ :=
    build_spec hparallelism htwenty hsorted hne hkeys hlength hnarrow
  exact ⟨firstKey, _, init, top, hhead, (hkeys firstKey (List.mem_of_mem_head? hhead)).2, hbuild,
    rfl, rfl, ⟨rfl, rfl, htower⟩, htop⟩

/-- A search brackets its key in no more than 34 positions, with any number of threads, as long as
no prediction leaves the range of `int64_t` and no segment is too long for single precision. -/
theorem search_brackets (hparallelism : 0 < parallelism) (htwenty : parallelism ≤ 20)
    (hsorted : keys.Pairwise (· < ·)) (hne : keys ≠ [])
    (hkeys : ∀ x ∈ keys, 0 ≤ x ∧ x < maxKey) (hlength : keys.length ≤ 2 ^ 26)
    (hnarrow : ∀ run, run <:+: ranked 0 keys → FitsBands .uint64 epsilon run →
      run.length + 2 * epsilon ≤ 5 * 2 ^ 19) :
    ∃ t, build parallelism keys = .ok t ∧ ∀ key < maxKey,
      (∀ s ∈ t.segments, s.key ≤ key → s.product key < 2 ^ 63) ∨
        (∃ x ∈ keys.head?, key < x + 2 ^ 57) →
      ∃ r, t.search key = .ok r ∧ r.lo ≤ rank id key keys ∧ rankAbove id key keys ≤ r.hi ∧
        r.hi ≤ keys.length ∧ r.hi ≤ r.lo + 34 := by
  obtain ⟨firstKey, t, init, top, hhead, hfirst, hbuild, hn, hfirstKey, hstands, htop⟩ :=
    exists_stands hparallelism htwenty hsorted hne hkeys hlength hnarrow
  refine ⟨t, hbuild, fun key hkey hfits => ?_⟩
  refine search_spec hstands htop hsorted hhead hfirstKey hn (max_lt hfirst hkey) ?_
  rcases hfits with hfits | ⟨x, hx, hdist⟩
  · rcases le_total firstKey key with hle | hge
    · rwa [max_eq_right hle]
    · exact hstands.product_lt hhead (by omega)
  · obtain rfl := Option.some.inj (hhead.symm.trans hx)
    exact hstands.product_lt hhead (by omega)

def cubes (n : ℕ) : List ℤ := (List.range n).map fun i : ℕ => (i : ℤ) ^ 3

example : (build 2 (cubes 100)).map levelsOffsets = .ok [0, 3, 5] := by decide +kernel

theorem mem_cubes {n : ℕ} (hn : n ≤ 2 ^ 20) {x : ℤ} (h : x ∈ cubes n) : 0 ≤ x ∧ x < maxKey := by
  obtain ⟨i, hi, rfl⟩ := List.mem_map.mp h
  have hlt : i < 2 ^ 20 := (List.mem_range.mp hi).trans_le hn
  have hcube : (i : ℤ) ^ 3 < (2 ^ 20) ^ 3 := by
    exact_mod_cast Nat.pow_lt_pow_left hlt three_ne_zero
  rw [maxKey]
  exact ⟨by positivity, by omega⟩

theorem pairwise_cubes (n : ℕ) : (cubes n).Pairwise (· < ·) :=
  List.pairwise_map.mpr <| List.pairwise_lt_range.imp fun h => by
    exact_mod_cast Nat.pow_lt_pow_left h three_ne_zero

theorem length_cubes (n : ℕ) : (cubes n).length = n := by
  rw [cubes, List.length_map, List.length_range]

theorem search_brackets_cubes :
    ∃ t, build 2 (cubes 100) = .ok t ∧ ∀ key < maxKey,
      (∀ s ∈ t.segments, s.key ≤ key → s.product key < 2 ^ 63) ∨
        (∃ x ∈ (cubes 100).head?, key < x + 2 ^ 57) →
      ∃ r, t.search key = .ok r ∧ r.lo ≤ rank id key (cubes 100) ∧
        rankAbove id key (cubes 100) ≤ r.hi ∧ r.hi ≤ (cubes 100).length ∧ r.hi ≤ r.lo + 34 :=
  search_brackets two_pos (by decide) (pairwise_cubes 100) (by decide)
    (fun _ hx => mem_cubes (by norm_num) hx) (by rw [length_cubes]; norm_num) fun run hrun _ => by
      have hle := hrun.length_le
      rw [length_ranked, length_cubes] at hle
      rw [epsilon]
      omega

end Built

end StaticPgm

end LearnedIndexFramework.Pgm
