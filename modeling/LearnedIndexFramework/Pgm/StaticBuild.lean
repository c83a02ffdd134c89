import LearnedIndexFramework.Pgm.Level

/-! Building the static index ends, with levels that lead from one segment to the keys. -/

namespace LearnedIndexFramework.Pgm

open Lib LearnedIndexFramework.Metric

theorem exists_of_forall₂ {α β : Type} {R : α → β → Prop} {xs : List α} {ys : List β}
    (h : List.Forall₂ R xs ys) {x : α} (hx : x ∈ xs) : ∃ y ∈ ys, R x y := by
  induction h with
  | nil => cases hx
  | @cons z y xs ys hr _ ih =>
    rcases List.mem_cons.mp hx with rfl | hx
    · exact ⟨y, List.mem_cons_self, hr⟩
    · obtain ⟨y', hy', hr'⟩ := ih hx
      exact ⟨y', List.mem_cons_of_mem y hy', hr'⟩

namespace StaticPgm

section BuildLevel

variable {epsilon parallelism : ℕ} {e lastKey : ℤ} {keys ks : List ℤ} {points : List (ℤ × ℤ)}

theorem mapM_ofCanonical {canonical : List Generator.CanonicalSegment}
    {runs : List (List (ℤ × ℤ))} (h : List.Forall₂ (Covers epsilon) canonical runs)
    (hrank : ∀ run ∈ runs, ∀ p ∈ run, 0 ≤ p.2 ∧ p.2 + epsilon < 2 ^ 31)
    (hrising : ∀ run ∈ runs, run.Pairwise Rising) :
    ∃ body, canonical.mapM Segment.ofCanonical = .ok body ∧
      List.Forall₂ (Fits epsilon) runs body := by
  induction h with
  | nil => exact ⟨[], rfl, .nil⟩
  | @cons c run canonical runs hc _ ih =>
    obtain ⟨s, hs, hfits⟩ := hc.ofCanonical (hrank run List.mem_cons_self)
      (hrising run List.mem_cons_self)
    obtain ⟨body, hbody, hall⟩ := ih (fun r hr => hrank r (List.mem_cons_of_mem run hr))
      fun r hr => hrising r (List.mem_cons_of_mem run hr)
    refine ⟨s :: body, ?_, .cons hfits hall⟩
    simp only [List.mapM_cons, hs, hbody, bind, Except.bind, pure, Except.pure]

theorem exists_body (hkeys : Almost e keys ks) (hpoints : fresh none points = ranked 0 ks)
    (hrank : ∀ (j : ℕ) (q : ℤ × ℤ), points[j]? = some q → q.2 = j)
    (hlen : points.length = keys.length) (hparallelism : 0 < parallelism)
    (hlength : keys.length + epsilon < 2 ^ 31)
    (hnarrow : ∀ run, run <:+: ranked 0 ks → FitsBands .uint64 epsilon run →
      run.length + 2 * epsilon ≤ 5 * 2 ^ 19) :
    ∃ canonical body runs, makeSegmentationPar parallelism epsilon points = .ok canonical ∧
      canonical.mapM Segment.ofCanonical = .ok body ∧ IsBody epsilon ks runs body ∧
      body.length * (2 * epsilon + 1) ≤
        keys.length + 2 * epsilon * if keys.length < 2 ^ 15 then 1 else parallelism := by
  have hrising := rising_ranked (i := 0) hkeys.sorted
  have hle := hkeys.length_le
  obtain ⟨canonical, runs, hrun, hcovers, hflatten, hcount⟩ :=
    @makeSegmentationPar_spec epsilon points _ hparallelism (hpoints ▸ hrising) hrank (by omega)
  rw [hpoints] at hflatten
  have hmem : ∀ run ∈ runs, run <:+: ranked 0 ks := fun run hrun =>
    hflatten ▸ List.infix_of_mem_flatten hrun
  obtain ⟨body, hbody, hfits⟩ := mapM_ofCanonical hcovers
    (fun run hrun p hp => by
      have := (mem_ranked ((hmem run hrun).subset hp)).2
      omega)
    fun run hrun => hrising.sublist (hmem run hrun).sublist
  refine ⟨canonical, body, runs, hrun, hbody, ⟨hfits, fun run hrun => ?_, hflatten,
    fun run hrun => ?_⟩, ?_⟩
  · obtain ⟨c, -, hc⟩ := exists_of_forall₂ hcovers.flip hrun
    exact hc.ne_nil
  · obtain ⟨s, -, hs⟩ := exists_of_forall₂ hfits hrun
    exact hnarrow run (hmem run hrun) hs.fitsBands
  · rw [← hlen, ← hfits.length_eq, ← hcovers.length_eq]
    exact hcount

theorem almost_next {runs : List (List (ℤ × ℤ))} {body : List Segment} {m : ℕ}
    (h : IsBody epsilon ks runs body) (hkeys : Almost e keys ks) (flat : Bool) :
    ∃ ks', Almost e ((body ++ levelEnd e m flat).dropLast.map Segment.key) ks' := by
  obtain ⟨x, hx, hlt⟩ := hkeys.head_lt
  have hhead : (body.map Segment.key).head? = some x := h.head.trans hx
  have hmem : ∀ y ∈ body.map Segment.key, y ∈ ks := by
    intro y hy
    obtain ⟨s, hs, rfl⟩ := List.mem_map.mp hy
    exact h.key_mem hs
  have hbody : Almost e (body.map Segment.key) (body.map Segment.key) :=
    ⟨h.sorted hkeys.sorted, .inl rfl, ⟨x, hhead, hlt⟩, fun y hy => hkeys.nonneg y (hmem y hy),
      fun y hy => hkeys.le y (hmem y hy)⟩
  cases flat with
  | false =>
    refine ⟨body.map Segment.key, ?_⟩
    rw [levelEnd, ← List.append_assoc, List.dropLast_concat]
    simpa using hbody
  | true =>
    rw [levelEnd, ← List.append_assoc, List.dropLast_concat, if_pos rfl, List.map_append]
    by_cases hlast : (body.map Segment.key).getLast? = some e
    · exact ⟨body.map Segment.key, hbody.sorted, .inr ⟨rfl, hlast⟩, hbody.head_lt, hbody.nonneg,
        hbody.le⟩
    · refine ⟨body.map Segment.key ++ [e], ?_, .inl rfl, ⟨x, ?_, hlt⟩, fun y hy => ?_,
        fun y hy => ?_⟩
      · refine List.pairwise_append.mpr ⟨hbody.sorted, List.pairwise_singleton _ _,
          fun y hy z hz => ?_⟩
        obtain rfl := List.mem_singleton.mp hz
        refine lt_of_le_of_ne (hbody.le y hy) ?_
        rintro rfl
        obtain ⟨ys, w, hw⟩ : ∃ ys w, body.map Segment.key = ys ++ [w] :=
          ⟨_, _, (List.dropLast_concat_getLast hbody.ne_nil).symm⟩
        rw [hw, List.getLast?_concat, Option.some_inj] at hlast
        rw [hw] at hy
        rcases List.mem_append.mp hy with hy | hy
        · have hyw := (List.pairwise_append.mp (hw ▸ hbody.sorted)).2.2 y hy w (by simp)
          have := hbody.le w (by rw [hw]; simp)
          omega
        · exact hlast (List.mem_singleton.mp hy).symm
      · rw [List.head?_append_of_ne_nil _ hbody.ne_nil]
        exact hhead
      · rcases List.mem_append.mp hy with hy | hy
        · exact hbody.nonneg y hy
        · obtain rfl := List.mem_singleton.mp hy
          exact (hbody.nonneg x (List.mem_of_mem_head? hhead)).trans hlt.le
      · rcases List.mem_append.mp hy with hy | hy
        · exact hbody.le y hy
        · exact (List.mem_singleton.mp hy).le

theorem length_eq_one {runs : List (List (ℤ × ℤ))} {body : List Segment}
    (h : IsBody epsilon ks runs body) (hkeys : Almost e keys ks) (htwo : 2 ≤ keys.length)
    (hone : body.length ≤ 1) : ∃ s, body = [s] ∧ s.slope ≠ 0 := by
  have hks := hkeys.two_le htwo
  match body, h, hone with
  | [], h, _ => exact absurd rfl (h.ne hkeys.ne_nil)
  | [s], h, _ =>
    refine ⟨s, rfl, fun hzero => ?_⟩
    have hflatten := h.flatten
    have hlength := h.fits.length_eq
    match runs, h.fits, hlength with
    | [run], .cons hfits _, _ =>
      have hshort := hfits.steep hzero
      rw [List.flatten_singleton] at hflatten
      have hrun := congrArg List.length hflatten
      rw [length_ranked] at hrun
      omega

theorem buildLevel_spec (hkeys : Almost e keys ks) (he : e ≤ maxKey) (hlast : lastKey + 1 = e)
    (hpoints : fresh none points = ranked 0 ks)
    (hrank : ∀ (j : ℕ) (q : ℤ × ℤ), points[j]? = some q → q.2 = j)
    (hlen : points.length = keys.length) (hparallelism : 0 < parallelism)
    (hlength : keys.length + epsilon < 2 ^ 31) (htwo : 2 ≤ epsilon) (hepsilon : epsilon ≤ 16)
    (hnarrow : ∀ run, run <:+: ranked 0 ks → FitsBands .uint64 epsilon run →
      run.length + 2 * epsilon ≤ 5 * 2 ^ 19) (segments : List Segment) :
    ∃ level count, buildLevel parallelism epsilon (some lastKey) points segments =
        .ok (segments ++ level, count) ∧
      level.length = count + 1 ∧ IsLevel epsilon keys level ∧
      (∃ ks', Almost e (level.dropLast.map Segment.key) ks') ∧
      (count - 1) * (2 * epsilon + 1) ≤
        keys.length + 2 * epsilon * (if keys.length < 2 ^ 15 then 1 else parallelism) ∧
      (2 ≤ keys.length → keys.length ≤ 2 * epsilon + 1 → count = 1) ∧ 0 < count := by
  obtain ⟨canonical, body, runs, hcanonical, hmap, hbody, hcount⟩ :=
    exists_body hkeys hpoints hrank hlen hparallelism hlength hnarrow
  have hne := hbody.ne hkeys.ne_nil
  obtain ⟨init, back, rfl⟩ : ∃ init back, body = init ++ [back] :=
    ⟨_, _, (List.dropLast_concat_getLast hne).symm⟩
  set flat : Bool := decide (back.slope = 0 ∧ 1 < keys.length) with hflat
  have hepos : 0 ≤ e := by
    obtain ⟨x, hx, hlt⟩ := hkeys.head_lt
    exact (hkeys.nonneg x (List.mem_of_mem_head? hx)).trans hlt.le
  have hkey : (lastKey + 1) % 2 ^ 64 = e := by
    rw [hlast]
    rw [maxKey] at he
    omega
  have hlevel : ((init ++ [back]) ++ levelEnd e keys.length flat).length =
      (init ++ [back]).length + (if flat then 1 else 0) + 1 := by
    rw [List.length_append, levelEnd, List.length_append]
    cases flat <;> rfl
  refine ⟨(init ++ [back]) ++ levelEnd e keys.length flat,
    (init ++ [back]).length + (if flat then 1 else 0), ?_, hlevel,
    hbody.isLevel hkeys he hlength htwo hepsilon flat, almost_next hbody hkeys flat, ?_, ?_, ?_⟩
  · rw [buildLevel, hcanonical, hlen]
    simp only [bind, Except.bind, hmap]
    simp only [← List.append_assoc, List.getLast?_concat, orUndefined, hkey]
    by_cases hextra : back.slope = 0 ∧ 1 < keys.length
    · rw [if_pos hextra, hflat, decide_eq_true hextra]
      simp [levelEnd, pure, Except.pure]
    · rw [if_neg hextra, hflat, decide_eq_false hextra]
      simp [levelEnd, pure, Except.pure]
  · refine le_trans (Nat.mul_le_mul_right _ ?_) hcount
    split <;> omega
  · intro htwo' hsmall
    have hone : (init ++ [back]).length ≤ 1 := by
      by_contra hge
      have hmul := Nat.mul_le_mul_right (2 * epsilon + 1)
        (show 2 ≤ (init ++ [back]).length by omega)
      rw [if_pos (by omega)] at hcount
      omega
    obtain ⟨s, hs, hslope⟩ := length_eq_one hbody hkeys htwo' hone
    have hback : back = s := by
      cases init with
      | nil => simpa using hs
      | cons _ _ => simp at hs
    rw [hs, hflat, decide_eq_false fun hextra => hslope (hback ▸ hextra.1)]
    rfl
  · simp

end BuildLevel

structure Tower (keys : List ℤ) (levels : List (List Segment)) : Prop where
  bottom : ∀ level ∈ levels.head?, IsLevel epsilon keys level
  upper : ∀ l level above, levels[l]? = some level → levels[l + 1]? = some above →
    IsLevel epsilonRecursive (level.dropLast.map Segment.key) above

def offsets (levels : List (List Segment)) : List ℕ :=
  (List.range (levels.length + 1)).map fun l => (levels.take l).flatten.length

section Offsets

variable {levels : List (List Segment)} {level : List Segment} {l : ℕ}

@[simp] theorem length_offsets (levels : List (List Segment)) :
    (offsets levels).length = levels.length + 1 := by
  rw [offsets, List.length_map, List.length_range]

theorem getElem?_offsets (hl : l ≤ levels.length) :
    (offsets levels)[l]? = some (levels.take l).flatten.length := by
  rw [offsets, List.getElem?_map, List.getElem?_range (Nat.lt_succ_of_le hl)]
  rfl

theorem getLast?_offsets : (offsets levels).getLast? = some levels.flatten.length := by
  rw [List.getLast?_eq_getElem?, length_offsets, Nat.add_sub_cancel, getElem?_offsets le_rfl,
    List.take_length]

theorem offsets_concat (levels : List (List Segment)) (level : List Segment) :
    offsets (levels ++ [level]) = offsets levels ++ [levels.flatten.length + level.length] := by
  have hinitial : ∀ l ∈ List.range (levels.length + 1),
      ((levels ++ [level]).take l).flatten.length = (levels.take l).flatten.length := by
    intro l hl
    rw [List.take_append_of_le_length (Nat.le_of_lt_succ (List.mem_range.mp hl))]
  rw [offsets, List.length_append, List.length_singleton, List.range_succ, List.map_append,
    List.map_congr_left hinitial, List.map_singleton, List.take_of_length_le (by simp),
    List.flatten_append, List.flatten_singleton, List.length_append]
  rfl

end Offsets

section Upper

variable {parallelism : ℕ} {e lastKey : ℤ} {data ks : List ℤ}

theorem fresh_ranked {keys : List ℤ} (h : Almost e keys ks) :
    fresh none (ranked 0 keys) = ranked 0 ks := by
  have hks : fresh none (ranked 0 ks) = ranked 0 ks :=
    fresh_eq_self ((pairwise_ranked h.sorted).imp fun hlt => hlt.ne) (by simp)
  rcases h.keys_eq with rfl | ⟨rfl, hlast⟩
  · exact hks
  · have hsplit : ranked 0 (ks ++ [e]) = ranked 0 ks ++ ranked ks.length [e] := by
      have htake := ranked_take 0 (ks ++ [e]) ks.length
      have hdrop := ranked_drop 0 (ks ++ [e]) ks.length
      rw [List.take_left] at htake
      rw [List.drop_left, zero_add] at hdrop
      rw [← htake, ← hdrop, List.take_append_drop]
    have hlast' : (ranked 0 ks).getLast?.map Prod.fst = some e := by
      rw [List.getLast?_eq_getElem?, length_ranked, getElem?_ranked, ← List.getLast?_eq_getElem?,
        hlast]
      rfl
    rw [hsplit, fresh_append, hks, hlast']
    simp [ranked, fresh]

theorem buildUpper_spec (hparallelism : 0 < parallelism) (htwenty : parallelism ≤ 20)
    (he : e ≤ maxKey) (hlast : lastKey + 1 = e) {fuel lastN : ℕ} {init : List (List Segment)}
    {top : List Segment} (htower : Tower data (init ++ [top]))
    (hkeys : Almost e (top.dropLast.map Segment.key) ks) (hlength : top.length = lastN + 1)
    (hpos : 0 < lastN) (hsmall : lastN + 8 ≤ 2 ^ 21) (hfuel : lastN ≤ fuel) :
    ∃ init' top', buildUpper parallelism (some lastKey) fuel lastN (init ++ [top]).flatten
        (offsets (init ++ [top])) =
          .ok ((init' ++ [top']).flatten, offsets (init' ++ [top'])) ∧
      Tower data (init' ++ [top']) ∧ top'.length = 2 := by
  induction fuel generalizing lastN init top ks with
  | zero => omega
  | succ fuel ih =>
    rw [buildUpper]
    split
    case isFalse hone => exact ⟨init, top, rfl, htower, by omega⟩
    case isTrue hmany =>
      have hoffset : (offsets (init ++ [top]))[(offsets (init ++ [top])).length - 2]? =
          some init.flatten.length := by
        rw [length_offsets, List.length_append, List.length_singleton,
          show init.length + 1 + 1 - 2 = init.length by omega,
          getElem?_offsets (by simp), List.take_left]
      have htop : (((init ++ [top]).flatten.drop init.flatten.length).take lastN).map Segment.key =
          top.dropLast.map Segment.key := by
        rw [List.flatten_append, List.flatten_singleton, List.drop_left, List.dropLast_eq_take,
          hlength, Nat.add_sub_cancel]
      have hkeysLength : (top.dropLast.map Segment.key).length = lastN := by
        rw [List.length_map, List.length_dropLast, hlength, Nat.add_sub_cancel]
      have hks := hkeys.length_le
      obtain ⟨level, count, hrun, hcount, hlevel, ⟨ks', hkeys'⟩, hle, hone, hcountPos⟩ :=
        @buildLevel_spec epsilonRecursive parallelism _ _ _ _ _ hkeys he hlast
          (fresh_ranked hkeys)
          (fun j q hq => by
            rw [getElem?_ranked] at hq
            obtain ⟨x, -, rfl⟩ := Option.map_eq_some_iff.mp hq
            exact zero_add _)
          (length_ranked 0 _) hparallelism (by rw [epsilonRecursive]; omega)
          (by decide) (by decide)
          (fun run hrun _ => by
            have := hrun.length_le
            rw [length_ranked] at this
            rw [epsilonRecursive]
            omega)
          (init ++ [top]).flatten
      have hfewer : count < lastN := by
        rw [hkeysLength, epsilonRecursive] at hle hone
        rcases Nat.lt_or_ge lastN 10 with hlt | hge
        · rw [hone (by omega) (by omega)]
          exact hmany
        · split at hle <;> omega
      have htower' : Tower data (init ++ [top] ++ [level]) := by
        refine ⟨fun L hL => htower.bottom L ?_, fun l L L' hL hL' => ?_⟩
        · rwa [List.head?_append_of_ne_nil _ (by simp)] at hL
        · rcases Nat.lt_or_ge (l + 1) (init ++ [top]).length with hlt | hge
          · rw [List.getElem?_append_left (by omega)] at hL
            rw [List.getElem?_append_left hlt] at hL'
            exact htower.upper l L L' hL hL'
          · have hl := (List.getElem?_eq_some_iff.mp hL').1
            rw [List.length_append, List.length_singleton] at hl
            obtain rfl : l = init.length := by
              rw [List.length_append, List.length_singleton] at hge hl
              omega
            rw [List.getElem?_append_left (by simp), List.getElem?_concat_length] at hL
            rw [show init.length + 1 = (init ++ [top]).length by simp,
              List.getElem?_concat_length] at hL'
            obtain rfl := Option.some.inj hL
            obtain rfl := Option.some.inj hL'
            exact hlevel
      obtain ⟨init', top', hrest, hresult⟩ :=
        ih htower' hkeys' hcount hcountPos (by omega) (by omega)
      refine ⟨init', top', ?_, hresult⟩
      rw [hoffset, getLast?_offsets]
      simp only [bind, Except.bind, orUndefined, htop, hrun]
      rw [← hrest, @List.flatten_append _ (init ++ [top]) [level], List.flatten_singleton,
        offsets_concat (init ++ [top]), hcount, Nat.add_assoc]

end Upper

section Build

variable {parallelism : ℕ} {keys : List ℤ}

theorem inFun_eq {before : Option ℤ} {i : ℤ} (h : keys.Pairwise (· < ·))
    (hbefore : ∀ x ∈ before, ∀ y ∈ keys, x < y) : inFun before i keys = ranked i keys := by
  induction keys generalizing before i with
  | nil => rw [inFun, ranked]
  | cons x keys ih =>
    obtain ⟨hx, h⟩ := List.pairwise_cons.mp h
    have hne : before ≠ some x := by
      rintro rfl
      exact lt_irrefl x (hbefore x rfl x List.mem_cons_self)
    cases keys with
    | nil => rfl
    | cons next rest =>
      rw [inFun, if_neg fun hflag => hne hflag.1, ranked, ih h]
      intro y hy z hz
      obtain rfl := Option.some.inj hy
      exact hx z hz

theorem build_spec (hparallelism : 0 < parallelism) (htwenty : parallelism ≤ 20)
    (hsorted : keys.Pairwise (· < ·)) (hne : keys ≠ [])
    (hkeys : ∀ x ∈ keys, 0 ≤ x ∧ x < maxKey) (hlength : keys.length ≤ 2 ^ 26)
    (hnarrow : ∀ run, run <:+: ranked 0 keys → FitsBands .uint64 epsilon run →
      run.length + 2 * epsilon ≤ 5 * 2 ^ 19) :
    ∃ firstKey init top, keys.head? = some firstKey ∧ build parallelism keys =
        .ok ⟨keys.length, firstKey, (init ++ [top]).flatten, offsets (init ++ [top])⟩ ∧
      Tower keys (init ++ [top]) ∧ top.length = 2 := by
  obtain ⟨ini, lastKey, hconcat⟩ : ∃ ini lastKey, keys = ini ++ [lastKey] :=
    ⟨_, _, (List.dropLast_concat_getLast hne).symm⟩
  have hlast : keys.getLast? = some lastKey := by rw [hconcat, List.getLast?_concat]
  have hlastMem : lastKey ∈ keys := List.mem_of_getLast? hlast
  have hlastLt := (hkeys lastKey hlastMem).2
  have hle : ∀ x ∈ keys, x ≤ lastKey := by
    intro x hx
    rw [hconcat] at hx hsorted
    rcases List.mem_append.mp hx with hx | hx
    · exact ((List.pairwise_append.mp hsorted).2.2 x hx lastKey (by simp)).le
    · exact (List.mem_singleton.mp hx).le
  obtain ⟨firstKey, rest, hcons⟩ := List.exists_cons_of_ne_nil hne
  have halmost : Almost (lastKey + 1) keys keys :=
    ⟨hsorted, .inl rfl, ⟨firstKey, by rw [hcons]; rfl, by
      have := hle firstKey (hcons ▸ List.mem_cons_self)
      omega⟩, fun x hx => (hkeys x hx).1, fun x hx => by
      have := hle x hx
      omega⟩
  obtain ⟨level, count, hrun, hcount, hlevel, ⟨ks', hkeys'⟩, hbound, -, hpos⟩ :=
    @buildLevel_spec epsilon parallelism _ _ _ _ _ halmost (by omega) rfl
      (fresh_ranked halmost)
      (fun j q hq => by
        rw [getElem?_ranked] at hq
        obtain ⟨x, -, rfl⟩ := Option.map_eq_some_iff.mp hq
        exact zero_add _)
      (length_ranked 0 _) hparallelism (by rw [epsilon]; omega) (by decide) (by decide) hnarrow []
  rw [epsilon] at hbound
  have hpositive := List.length_pos_iff.mpr hne
  have hcountLe : count ≤ keys.length + 1 ∧ count + 8 ≤ 2 ^ 21 := by
    split at hbound <;> omega
  obtain ⟨init, top, hupper, htower, htop⟩ := @buildUpper_spec parallelism (lastKey + 1) lastKey keys
    ks' hparallelism htwenty (by omega) rfl (keys.length + 1) count [] level
    ⟨fun L hL => by
      obtain rfl : level = L := by simpa using hL
      exact hlevel, fun l L L' _ hL' => by simp at hL'⟩
    hkeys' hcount hpos hcountLe.2 hcountLe.1
  refine ⟨firstKey, init, top, by rw [hcons]; rfl, ?_, htower, htop⟩
  have hmax : keys.getLast? ≠ some maxKey := by
    rw [hlast]
    exact fun heq => hlastLt.ne (Option.some.inj heq)
  have hmatch : build parallelism keys =
      (buildLevel parallelism epsilon (some lastKey) ((inFun none 0 keys).take keys.length) []).bind
        fun base => (buildUpper parallelism (some lastKey) (keys.length + 1) base.2 base.1
          [0, base.2 + 1]).bind fun upper => .ok ⟨keys.length, firstKey, upper.1, upper.2⟩ := by
    rw [hcons] at hmax hlast ⊢
    rw [build]
    simp only [if_neg hmax, List.take_length]
    rw [hlast]
    rfl
  have hoffsets : offsets [level] = [0, count + 1] := by
    rw [← hcount]
    simp [offsets, List.range_succ]
  rw [List.nil_append, hoffsets, List.flatten_singleton] at hupper
  rw [hmatch, inFun_eq hsorted (by simp), ← length_ranked 0 keys, List.take_length, hrun]
  simp only [Except.bind, List.nil_append, length_ranked, hupper]

end Build

end StaticPgm

end LearnedIndexFramework.Pgm
