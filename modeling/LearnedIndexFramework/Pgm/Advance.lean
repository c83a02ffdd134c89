import LearnedIndexFramework.Pgm.Find
import LearnedIndexFramework.Pgm.LoserTree
import Mathlib.Data.List.Forall2

/-! One step of an iterator.  What is left of the levels are its rests, the newest first, and it
takes the smallest of their heads. -/

namespace LearnedIndexFramework.Pgm

open Function Lib

variable {K V : Type}

section Rests

def headKey [Top K] (rest : List (Item K V)) : K := (rest.head?.map Item.first).getD ⊤

variable [LinearOrder K]

def above (key : K) (rests : List (List (Item K V))) : List (List (Item K V)) :=
  rests.map (List.filter (key < ·.first))

variable {rests : List (List (Item K V))} {rest xs : List (Item K V)} {x : Item K V} {s : ℕ}
  {k key : K}

theorem hit_filter_above (hk : key < k) (rest : List (Item K V)) :
    hit Item.first k (rest.filter (key < ·.first)) = hit Item.first k rest := by
  rw [hit, hit, List.find?_filter]
  congr 1
  funext item
  by_cases h : item.first = k
  · simp [h, hk]
  · simp [h]

theorem hitFirst_above (hk : key < k) (rests : List (List (Item K V))) :
    hitFirst Item.first k (above key rests) = hitFirst Item.first k rests := by
  induction rests with
  | nil => rfl
  | cons rest rests ih =>
    rw [above, List.map_cons, hitFirst_cons, hitFirst_cons, hit_filter_above hk]
    exact congrArg _ ih

theorem hitFirst_above_of_le (hk : k ≤ key) (rests : List (List (Item K V))) :
    hitFirst Item.first k (above key rests) = none := by
  rw [hitFirst, List.findSome?_eq_none_iff]
  intro rest hrest
  obtain ⟨rest', -, rfl⟩ := List.mem_map.mp hrest
  refine hit_eq_none_of_lt fun y hy => hk.trans_lt ?_
  simpa using (List.mem_filter.mp hy).2

theorem above_above {key' : K} (hle : key ≤ key') (rests : List (List (Item K V))) :
    above key' (above key rests) = above key' rests := by
  rw [above, above, above, List.map_map]
  refine List.map_congr_left fun rest _ => ?_
  rw [Function.comp_apply, List.filter_filter]
  congr 1
  funext item
  by_cases h : key' < item.first
  · simp [h, hle.trans_lt h]
  · simp [h]

theorem mem_above (hrest : rest ∈ above key rests) :
    ∃ rest' ∈ rests, rest = rest'.filter (key < ·.first) := by
  obtain ⟨rest', hmem, rfl⟩ := List.mem_map.mp hrest
  exact ⟨rest', hmem, rfl⟩

theorem above_eq_self (h : ∀ rest ∈ rests, ∀ y ∈ rest, key < y.first) :
    above key rests = rests := by
  conv_rhs => rw [← List.map_id rests]
  refine List.map_congr_left fun rest hrest => List.filter_eq_self.mpr fun y hy => ?_
  rw [decide_eq_true_eq]
  exact h rest hrest y hy

theorem above_set (hget : rests[s]? = some (x :: xs)) (hx : ¬ key < x.first) :
    above key (rests.set s xs) = above key rests := by
  have hfilter : (x :: xs).filter (key < ·.first) = xs.filter (key < ·.first) :=
    List.filter_cons_of_neg (by simpa using hx)
  rw [above, above, List.map_set, ← hfilter, ← List.map_set]
  obtain ⟨hlt, hs⟩ := List.getElem?_eq_some_iff.mp hget
  rw [← hs, List.set_getElem_self]

theorem length_flatten_above_le (key : K) (rests : List (List (Item K V))) :
    (above key rests).flatten.length ≤ rests.flatten.length := by
  induction rests with
  | nil => exact le_rfl
  | cons rest rests ih =>
    have hle := List.length_filter_le (fun item => decide (key < item.first)) rest
    rw [above, List.map_cons, List.flatten_cons, List.flatten_cons, List.length_append,
      List.length_append]
    exact Nat.add_le_add hle ih

structure Proper [OrderTop K] (rests : List (List (Item K V))) : Prop where
  ascending : ∀ rest ∈ rests, Ascending rest
  below : ∀ rest ∈ rests, ∀ y ∈ rest, y.first < ⊤

variable [OrderTop K]

theorem Proper.above (h : Proper rests) (key : K) : Proper (above key rests) where
  ascending rest hrest := by
    obtain ⟨rest', hmem, rfl⟩ := mem_above hrest
    exact (h.ascending rest' hmem).filter _
  below rest hrest y hy := by
    obtain ⟨rest', hmem, rfl⟩ := mem_above hrest
    exact h.below rest' hmem y (List.mem_of_mem_filter hy)

theorem Proper.set (h : Proper rests) (hget : rests[s]? = some (x :: xs)) :
    Proper (rests.set s xs) where
  ascending rest hrest := by
    rcases List.mem_or_eq_of_mem_set hrest with hrest | rfl
    · exact h.ascending rest hrest
    · exact (h.ascending _ (List.mem_of_getElem? hget)).tail
  below rest hrest y hy := by
    rcases List.mem_or_eq_of_mem_set hrest with hrest | rfl
    · exact h.below rest hrest y hy
    · exact h.below _ (List.mem_of_getElem? hget) y (List.mem_cons_of_mem x hy)

structure Smallest (rests : List (List (Item K V))) (s : ℕ) (x : Item K V)
    (xs : List (Item K V)) : Prop where
  get : rests[s]? = some (x :: xs)
  le : ∀ s' y ys, rests[s']? = some (y :: ys) →
    toLex (x.first, s) ≤ (toLex (y.first, s') : K ×ₗ ℕ)

theorem Smallest.le_of_mem (hmin : Smallest rests s x xs) (h : Proper rests)
    (hrest : rest ∈ rests) {y : Item K V} (hy : y ∈ rest) : x.first ≤ y.first := by
  obtain ⟨s', hs'⟩ := List.mem_iff_getElem?.mp hrest
  cases rest with
  | nil => cases hy
  | cons z zs =>
    have hz : x.first ≤ z.first := by
      rcases Prod.Lex.le_iff.mp (hmin.le s' z zs hs') with hlt | ⟨heq, -⟩
      · exact hlt.le
      · exact heq.le
    rcases List.mem_cons.mp hy with rfl | hy
    · exact hz
    · exact hz.trans ((keyAscending_cons.mp (h.ascending _ hrest)).1 y hy).le

theorem Smallest.hitFirst_of_lt (hmin : Smallest rests s x xs) (h : Proper rests)
    (hk : k < x.first) : hitFirst Item.first k rests = none := by
  rw [hitFirst, List.findSome?_eq_none_iff]
  exact fun rest hrest => hit_eq_none.mpr fun y hy =>
    (hk.trans_le (hmin.le_of_mem h hrest hy)).ne'

theorem Smallest.hitFirst_eq (hmin : Smallest rests s x xs) (h : Proper rests) :
    hitFirst Item.first x.first rests = some x := by
  obtain ⟨hlt, hs⟩ := List.getElem?_eq_some_iff.mp hmin.get
  have hsplit : rests = rests.take s ++ (x :: xs) :: rests.drop (s + 1) := by
    rw [← hs, ← List.drop_eq_getElem_cons hlt, List.take_append_drop]
  have hnone : hitFirst Item.first x.first (rests.take s) = none := by
    rw [hitFirst, List.findSome?_eq_none_iff]
    intro rest hrest
    obtain ⟨s', hs'⟩ := List.mem_iff_getElem?.mp hrest
    have hlt' : s' < s := by
      have := (List.getElem?_eq_some_iff.mp hs').1
      rw [List.length_take] at this
      omega
    rw [List.getElem?_take_of_lt hlt'] at hs'
    cases rest with
    | nil => rfl
    | cons y ys =>
      have hy : x.first < y.first := by
        rcases Prod.Lex.le_iff.mp (hmin.le s' y ys hs') with hlt | ⟨-, hle⟩
        · exact hlt
        · exact absurd hle (not_le.mpr hlt')
      refine hit_eq_none_of_lt fun z hz => ?_
      rcases List.mem_cons.mp hz with rfl | hz
      · exact hy
      · exact hy.trans
          ((keyAscending_cons.mp (h.ascending _ (List.mem_of_getElem? hs'))).1 z hz)
  rw [hsplit, hitFirst_append, hnone, Option.none_or, hitFirst_cons, hit_cons_self, Option.some_or]

end Rests

section Leaves

variable [LinearOrder K] [BoundedOrder K] {rests : List (List (Item K V))}
  {rest xs : List (Item K V)} {x : Item K V} {s d : ℕ}

def leaves (d : ℕ) (rests : List (List (Item K V))) (q : ℕ) : K ×ₗ ℕ :=
  if q < 2 ^ d then toLex (⊥, 0)
  else
    match rests[q - 2 ^ d]? with
    | none => toLex (⊤, 255)
    | some rest => toLex (headKey rest, q - 2 ^ d)

theorem leaves_of_get (d : ℕ) (hget : rests[s]? = some rest) :
    leaves d rests (2 ^ d + s) = toLex (headKey rest, s) := by
  rw [leaves, if_neg (by omega), Nat.add_sub_cancel_left, hget]

theorem leaves_set (d : ℕ) (hs : s < rests.length) (xs : List (Item K V)) :
    update (leaves d rests) (2 ^ d + s) (toLex (headKey xs, s)) = leaves d (rests.set s xs) := by
  funext q
  by_cases hq : q = 2 ^ d + s
  · subst hq
    rw [update_self, leaves_of_get d (List.getElem?_set_self hs)]
  · rw [update_of_ne hq, leaves, leaves]
    split
    · rfl
    · rw [List.getElem?_set_ne (by omega)]

end Leaves

open DynamicPgm (Cursor)

def Points (t : DynamicPgm K V) (c : Cursor) (rest : List (Item K V)) : Prop :=
  ∃ level, t.level c.levelNumber = .ok level ∧ level.drop c.iterator = rest

section Points

variable {t : DynamicPgm K V} {c : Cursor} {x : Item K V} {xs : List (Item K V)}

theorem Points.deref (h : Points t c (x :: xs)) : t.deref c = .ok x := by
  obtain ⟨level, hlevel, hdrop⟩ := h
  have hx : level[c.iterator]? = some x := by
    rw [← Nat.add_zero c.iterator, ← List.getElem?_drop, hdrop]
    rfl
  refine bind_eq_ok.mpr ⟨level, hlevel, ?_⟩
  rw [hx]
  rfl

theorem Points.next (h : Points t c (x :: xs)) : Points t ⟨c.levelNumber, c.iterator + 1⟩ xs := by
  obtain ⟨level, hlevel, hdrop⟩ := h
  refine ⟨level, hlevel, ?_⟩
  rw [← List.drop_drop, hdrop]
  rfl

end Points

namespace Iterator

variable [LinearOrder K] [BoundedOrder K]

structure Carries (t : DynamicPgm K V) (it : Iterator K) (rests : List (List (Item K V))) :
    Prop where
  points : List.Forall₂ (Points t) it.iterators rests
  plays : rests ≠ [] → ∃ d, rests.length ≤ 2 ^ d ∧ it.tree.Plays d (leaves d rests)
  count : it.unconsumedCount = rests.countP fun rest => !rest.isEmpty

variable {t : DynamicPgm K V} {it : Iterator K} {rests : List (List (Item K V))}

theorem Carries.eq_nil (h : Carries t it rests) (hcount : it.unconsumedCount = 0) :
    ∀ rest ∈ rests, rest = [] := by
  rw [h.count, List.countP_eq_zero] at hcount
  intro rest hrest
  simpa using hcount rest hrest

theorem Carries.smallest (h : Carries t it rests) (hrests : Proper rests)
    (hcount : 0 < it.unconsumedCount) :
    ∃ x xs, Smallest rests it.tree.minSource x xs ∧ ∃ d, rests.length ≤ 2 ^ d ∧
      it.tree.Plays d (leaves d rests) ∧
      (it.tree.losers 0).entry = toLex (x.first, it.tree.minSource) := by
  rw [h.count, List.countP_pos_iff] at hcount
  obtain ⟨rest, hrest, hne⟩ := hcount
  obtain ⟨d, hlen, hplays⟩ := h.plays (List.ne_nil_of_mem hrest)
  have hplace : ∀ s, s < rests.length → (2 ^ d + s) / 2 ^ d = 1 := fun s hs => by
    rw [Nat.add_div_left _ (Nat.two_pow_pos d), Nat.div_eq_of_lt (by omega)]
  have htop : (it.tree.losers 0).key < ⊤ := by
    obtain ⟨s, hs⟩ := List.mem_iff_getElem?.mp hrest
    have hle := hplays.losers.top_le (hplace s (List.getElem?_eq_some_iff.mp hs).1)
    rw [leaves_of_get d hs] at hle
    cases rest with
    | nil => cases hne
    | cons y ys =>
      have hy := hrests.below _ hrest y List.mem_cons_self
      rcases Prod.Lex.le_iff.mp hle with hlt | ⟨heq, -⟩
      · exact hlt.trans hy
      · exact heq.trans_lt hy
  obtain ⟨q, hq, heq⟩ := hplays.losers.exists_top_eq
  have hentry : toLex ((it.tree.losers 0).key, it.tree.minSource) = leaves d rests q := heq
  rw [Nat.div_eq_iff (Nat.two_pow_pos d)] at hq
  obtain ⟨s, rfl⟩ : ∃ s, q = 2 ^ d + s := ⟨q - 2 ^ d, by omega⟩
  cases hs : rests[s]? with
  | none =>
    rw [leaves, if_neg (by omega), Nat.add_sub_cancel_left, hs] at hentry
    exact absurd (congrArg (fun e => (ofLex e).1) hentry) htop.ne
  | some rest =>
    rw [leaves_of_get d hs] at hentry
    have hkey : (it.tree.losers 0).key = headKey rest := congrArg (fun e => (ofLex e).1) hentry
    have hsource : it.tree.minSource = s := congrArg (fun e => (ofLex e).2) hentry
    cases rest with
    | nil => exact absurd hkey htop.ne
    | cons x xs =>
      refine ⟨x, xs, ⟨hsource ▸ hs, fun s' y ys hs' => ?_⟩, d, hlen, hplays, ?_⟩
      · have hle := hplays.losers.top_le (hplace s' (List.getElem?_eq_some_iff.mp hs').1)
        rw [leaves_of_get d hs'] at hle
        rw [hsource]
        exact (heq.trans (leaves_of_get d hs)).ge.trans hle
      · exact congrArg₂ (fun a b => (toLex (a, b) : K ×ₗ ℕ)) hkey rfl

theorem Carries.step (h : Carries t it rests) (hrests : Proper rests)
    (hcount : 0 < it.unconsumedCount) :
    ∃ s x xs c it', it.iterators[it.tree.minSource]? = some c ∧ t.deref c = .ok x ∧
      it.step t = .ok (c, it') ∧ Smallest rests s x xs ∧ Carries t it' (rests.set s xs) ∧
      it'.current = it.current ∧ it'.initialized = it.initialized := by
  obtain ⟨x, xs, hmin, d, hlen, hplays, htop⟩ := h.smallest hrests hcount
  generalize hsource : it.tree.minSource = s at hmin htop ⊢
  obtain ⟨hlt, hs⟩ := List.getElem?_eq_some_iff.mp hmin.get
  have hlt' : s < it.iterators.length := h.points.length_eq ▸ hlt
  have hc := List.getElem?_eq_getElem hlt'
  generalize it.iterators[s] = c at hc
  have hpoint : Points t c (x :: xs) := by
    obtain ⟨-, hforall⟩ := List.forall₂_iff_get.mp h.points
    have hget := hforall s hlt' hlt
    rw [List.get_eq_getElem, List.get_eq_getElem, hs] at hget
    rwa [(List.getElem?_eq_some_iff.mp hc).2] at hget
  have hpoints : List.Forall₂ (Points t)
      (it.iterators.set s ⟨c.levelNumber, c.iterator + 1⟩) (rests.set s xs) := by
    obtain ⟨hlength, hforall⟩ := List.forall₂_iff_get.mp h.points
    refine List.forall₂_iff_get.mpr ⟨by simpa using hlength, fun i hi hi' => ?_⟩
    rw [List.length_set] at hi hi'
    by_cases his : s = i
    · subst his
      simpa using hpoint.next
    · simpa [his] using hforall i hi hi'
  have hkeys : ∀ key : Option K, headKey xs = key.getD ⊤ → rests.set s xs ≠ [] →
      ∃ d, (rests.set s xs).length ≤ 2 ^ d ∧
        (it.tree.deleteMinInsert key).Plays d (leaves d (rests.set s xs)) := by
    intro key hkey _
    refine ⟨d, by rwa [List.length_set], ?_⟩
    rw [← leaves_set d hlt, hkey, ← hsource]
    refine hplays.deleteMinInsert (by omega) ?_ key
    rw [hsource, leaves_of_get d hmin.get, htop]
    rfl
  obtain ⟨level, hlevel, hdrop⟩ := hpoint
  have hcountSet : (rests.set s xs).countP (fun rest => !rest.isEmpty) =
      it.unconsumedCount - 1 + if xs.isEmpty then 0 else 1 := by
    rw [List.countP_set hlt, hs, h.count]
    cases xs <;> simp
  have hlevelLength : level.length = c.iterator + 1 + xs.length := by
    have hlength := congrArg List.length hdrop
    rw [List.length_drop, List.length_cons] at hlength
    omega
  have hx : t.deref c = .ok x := Points.deref ⟨level, hlevel, hdrop⟩
  rw [Iterator.step, hsource]
  simp only [bind, Except.bind, hc, orUndefined, hlevel, pure, Except.pure]
  cases xs with
  | nil =>
    rw [if_pos (by simpa using hlevelLength.symm)]
    refine ⟨s, x, [], c, _, rfl, hx, rfl, hmin, ⟨hpoints, hkeys none rfl, ?_⟩, rfl, rfl⟩
    rw [hcountSet]
    simp
  | cons y ys =>
    have hy : level[c.iterator + 1]? = some y := by
      rw [← List.getElem?_drop, hdrop]
      rfl
    rw [if_neg (by rw [hlevelLength, List.length_cons]; omega), hy]
    refine ⟨s, x, y :: ys, c, _, rfl, hx, rfl, hmin, ⟨hpoints, hkeys (some y.first) rfl, ?_⟩, rfl,
      rfl⟩
    rw [hcountSet]
    simp only [List.isEmpty_cons, Bool.false_eq_true, if_false]
    omega

theorem Carries.skipEqual {key : K} {fuel : ℕ} (h : Carries t it rests) (hrests : Proper rests)
    (hge : ∀ rest ∈ rests, ∀ y ∈ rest, key ≤ y.first) (hfuel : rests.flatten.length < fuel) :
    ∃ it', it.skipEqual t key fuel = .ok it' ∧ Carries t it' (above key rests) ∧
      it'.current = it.current ∧ it'.initialized = it.initialized := by
  induction fuel generalizing it rests with
  | zero => omega
  | succ fuel ih =>
    rw [Iterator.skipEqual]
    split
    case isTrue hcount =>
      refine ⟨it, rfl, ?_, rfl, rfl⟩
      rw [above_eq_self]
      · exact h
      · intro rest hrest y hy
        rw [h.eq_nil hcount rest hrest] at hy
        cases hy
    case isFalse hcount =>
      obtain ⟨s, x, xs, c, it', hc, hx, hstep, hmin, hcarries, hcurrent, hinit⟩ :=
        h.step hrests (Nat.pos_of_ne_zero hcount)
      simp only [bind, Except.bind, hc, orUndefined, hx, hstep]
      split
      case isTrue heq =>
        have hlength := length_flatten_set xs hmin.get
        rw [List.length_cons] at hlength
        obtain ⟨it'', hrun, hcarries', hcurrent', hinit'⟩ := ih hcarries (hrests.set hmin.get)
          (fun rest hrest y hy => by
            rw [← heq]
            rcases List.mem_or_eq_of_mem_set hrest with hrest | rfl
            · exact hmin.le_of_mem hrests hrest hy
            · exact hmin.le_of_mem hrests (List.mem_of_getElem? hmin.get)
                (List.mem_cons_of_mem x hy))
          (by omega)
        rw [above_set hmin.get heq.le.not_gt] at hcarries'
        exact ⟨it'', hrun, hcarries', hcurrent'.trans hcurrent, hinit'.trans hinit⟩
      case isFalse hne =>
        refine ⟨it, rfl, ?_, rfl, rfl⟩
        have hlt : key < x.first :=
          lt_of_le_of_ne (hge _ (List.mem_of_getElem? hmin.get) x List.mem_cons_self) (Ne.symm hne)
        rw [above_eq_self fun rest hrest y hy => hlt.trans_le (hmin.le_of_mem hrests hrest hy)]
        exact h

variable [DecidableEq V] [Top V]

def Reaches (t : DynamicPgm K V) (rests : List (List (Item K V))) (initialized : Bool) :
    Option (Iterator K) → Prop
  | none => ∀ k, live (hitFirst Item.first k rests) = none
  | some it => ∃ x, t.deref it.current = .ok x ∧ x.deleted = false ∧
      hitFirst Item.first x.first rests = some x ∧
      (∀ k, k < x.first → live (hitFirst Item.first k rests) = none) ∧
      Carries t it (above x.first rests) ∧ it.initialized = initialized

theorem Reaches.of_deleted {b : Bool} {r : Option (Iterator K)} {s : ℕ} {x : Item K V}
    {xs : List (Item K V)} (h : Reaches t (above x.first rests) b r) (hmin : Smallest rests s x xs)
    (hrests : Proper rests) (hdeleted : x.deleted = true) : Reaches t rests b r := by
  have hle : ∀ k, k ≤ x.first → live (hitFirst Item.first k rests) = none := by
    intro k hk
    rcases hk.lt_or_eq with hlt | rfl
    · rw [hmin.hitFirst_of_lt hrests hlt]
      rfl
    · rw [hmin.hitFirst_eq hrests]
      simp [live, hdeleted]
  have hgt : ∀ k, x.first < k →
      hitFirst Item.first k (above x.first rests) = hitFirst Item.first k rests := fun k hk =>
    hitFirst_above hk rests
  cases r with
  | none =>
    intro k
    rcases le_or_gt k x.first with hk | hk
    · exact hle k hk
    · rw [← hgt k hk]
      exact h k
  | some it =>
    obtain ⟨y, hderef, hlive, hhit, hnone, hcarries, hinit⟩ := h
    have hxy : x.first < y.first := by
      obtain ⟨rest, hrest, hrestHit⟩ := List.exists_of_findSome?_eq_some hhit
      obtain ⟨rest', -, rfl⟩ := mem_above hrest
      simpa using (List.mem_filter.mp (List.mem_of_find?_eq_some hrestHit)).2
    refine ⟨y, hderef, hlive, (hgt _ hxy).symm.trans hhit, fun k hk => ?_, ?_, hinit⟩
    · rcases le_or_gt k x.first with hkx | hkx
      · exact hle k hkx
      · rw [← hgt k hkx]
        exact hnone k hk
    · rwa [above_above hxy.le] at hcarries

theorem Carries.advanceLoop {fuel : ℕ} (h : Carries t it rests) (hrests : Proper rests)
    (hcount : 0 < it.unconsumedCount) (htotal : rests.flatten.length ≤ t.total)
    (hfuel : rests.flatten.length < fuel) :
    ∃ r, it.advanceLoop t fuel = .ok r ∧ Reaches t rests it.initialized r := by
  induction fuel generalizing it rests with
  | zero => omega
  | succ fuel ih =>
    obtain ⟨s, x, xs, c, it₁, -, hx, hstep, hmin, hcarries₁, hcurrent₁, hinit₁⟩ :=
      h.step hrests hcount
    have hlength := length_flatten_set xs hmin.get
    rw [List.length_cons] at hlength
    obtain ⟨it₂, hskip, hcarries, hcurrent₂, hinit₂⟩ := @Carries.skipEqual _ _ _ _ t it₁
      _ x.first (t.total + 1) hcarries₁ (hrests.set hmin.get)
      (fun rest hrest y hy => by
        rcases List.mem_or_eq_of_mem_set hrest with hrest | rfl
        · exact hmin.le_of_mem hrests hrest hy
        · exact hmin.le_of_mem hrests (List.mem_of_getElem? hmin.get) (List.mem_cons_of_mem x hy))
      (by omega)
    have hle := length_flatten_above_le x.first (rests.set s xs)
    rw [above_set hmin.get (lt_irrefl _)] at hcarries hle
    have hinit : it₂.initialized = it.initialized := hinit₂.trans hinit₁
    rw [Iterator.advanceLoop]
    simp only [bind, Except.bind, hstep, hx, hskip]
    split
    case isTrue hmore =>
      obtain ⟨r, hrun, hreaches⟩ := ih hcarries (hrests.above _) hmore.1 (by omega) (by omega)
      rw [hinit] at hreaches
      exact ⟨r, hrun, hreaches.of_deleted hmin hrests hmore.2⟩
    case isFalse hmore =>
      split
      case isTrue hdeleted =>
        have hend : it₂.unconsumedCount = 0 := by
          by_contra hne
          exact hmore ⟨Nat.pos_of_ne_zero hne, hdeleted⟩
        refine ⟨none, rfl, Reaches.of_deleted ?_ hmin hrests hdeleted⟩
        intro k
        rw [hitFirst_eq_none_of_nil (hcarries.eq_nil hend)]
        rfl
      case isFalse hlive =>
        refine ⟨_, rfl, x, hx, Bool.eq_false_iff.mpr hlive, hmin.hitFirst_eq hrests, ?_,
          ⟨hcarries.points, hcarries.plays, hcarries.count⟩, hinit⟩
        intro k hk
        rw [hmin.hitFirst_of_lt hrests hk]
        rfl

theorem Carries.advance (h : Carries t it rests) (hrests : Proper rests)
    (htotal : rests.flatten.length ≤ t.total) :
    ∃ r, it.advance t = .ok r ∧ Reaches t rests it.initialized r := by
  rw [Iterator.advance]
  split
  case isTrue hcount =>
    refine ⟨none, rfl, fun k => ?_⟩
    rw [hitFirst_eq_none_of_nil (h.eq_nil hcount)]
    rfl
  case isFalse hcount =>
    exact h.advanceLoop hrests (Nat.pos_of_ne_zero hcount) htotal (by omega)

end Iterator

end LearnedIndexFramework.Pgm
