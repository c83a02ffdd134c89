import LearnedIndexFramework.Pgm.Positions

/-! One level of the static index, and what `build_level` appends to the segments. -/

namespace LearnedIndexFramework.Pgm

open Lib LearnedIndexFramework.Metric

structure Almost (e : ℤ) (keys ks : List ℤ) : Prop where
  sorted : ks.Pairwise (· < ·)
  keys_eq : keys = ks ∨ keys = ks ++ [e] ∧ ks.getLast? = some e
  head_lt : ∃ x ∈ ks.head?, x < e
  nonneg : ∀ x ∈ ks, 0 ≤ x
  le : ∀ x ∈ ks, x ≤ e

structure IsLevel (epsilon : ℕ) (keys : List ℤ) (level : List Segment) : Prop where
  two_le : 2 ≤ level.length
  head : level.head?.map Segment.key = keys.head?
  last : level.getLast?.map Segment.key = some maxKey
  sorted : (level.map Segment.key).Pairwise (· ≤ ·)
  nonneg : ∀ s ∈ level, 0 ≤ s.key
  product_lt : ∀ s ∈ level, ∀ k, s.key ≤ k → k - s.key < 2 ^ 57 → s.product k < 2 ^ 63
  position_le : ∀ i s next k, level[i]? = some s → level[i + 1]? = some next → s.key ≤ k →
    k < next.key → k < 2 ^ 64 → position s next k ≤ rank id k keys + epsilon
  le_position : keys.Pairwise (· < ·) → ∀ i s next k, level[i]? = some s →
    level[i + 1]? = some next → s.key ≤ k → k < next.key → k < 2 ^ 64 →
      rankAbove id k keys ≤ position s next k + epsilon + 2

section Body

variable {epsilon m : ℕ} {e : ℤ} {keys ks : List ℤ} {runs : List (List (ℤ × ℤ))}
  {body : List Segment} {s : Segment} {i : ℕ}

structure IsBody (epsilon : ℕ) (ks : List ℤ) (runs : List (List (ℤ × ℤ))) (body : List Segment) :
    Prop where
  fits : List.Forall₂ (Fits epsilon) runs body
  ne_nil : ∀ run ∈ runs, run ≠ []
  flatten : runs.flatten = ranked 0 ks
  narrow : ∀ run ∈ runs, run.length + 2 * epsilon ≤ 5 * 2 ^ 19

theorem exists_run (h : List.Forall₂ (Fits epsilon) runs body) (hi : body[i]? = some s) :
    ∃ run, runs[i]? = some run ∧ Fits epsilon run s := by
  induction h generalizing i with
  | nil => simp at hi
  | @cons run s' runs body hfits _ ih =>
    cases i with
    | zero =>
      obtain rfl : s' = s := by simpa using hi
      exact ⟨run, rfl, hfits⟩
    | succ i => exact ih (by simpa using hi)

theorem IsBody.split (h : IsBody epsilon ks runs body) (hi : body[i]? = some s) :
    ∃ run head, Fits epsilon run s ∧ run.head? = some head ∧ s.key = head.1 ∧
      (head.1, head.2) ∈ ranked 0 ks ∧ run.length + 2 * epsilon ≤ 5 * 2 ^ 19 ∧
      (runs.take i).flatten ++ run ++ (runs.drop (i + 1)).flatten = ranked 0 ks := by
  obtain ⟨run, hrun, hfits⟩ := exists_run h.fits hi
  have hmem := List.mem_of_getElem? hrun
  obtain ⟨head, rest, rfl⟩ := List.exists_cons_of_ne_nil (h.ne_nil run hmem)
  have hsplit : (runs.take i).flatten ++ (head :: rest) ++ (runs.drop (i + 1)).flatten =
      ranked 0 ks := by
    obtain ⟨hlt, hget⟩ := List.getElem?_eq_some_iff.mp hrun
    rw [← h.flatten, List.append_assoc, ← hget, ← List.flatten_cons,
      ← List.drop_eq_getElem_cons hlt, ← List.flatten_append, List.take_append_drop]
  refine ⟨head :: rest, head, hfits, rfl, hfits.key head rfl, ?_, h.narrow _ hmem, hsplit⟩
  rw [← hsplit]
  simp

theorem IsBody.key_mem (h : IsBody epsilon ks runs body) (hs : s ∈ body) : s.key ∈ ks := by
  obtain ⟨i, hi⟩ := List.mem_iff_getElem?.mp hs
  obtain ⟨run, head, -, -, hkey, hmem, -⟩ := h.split hi
  rw [hkey]
  exact (mem_ranked hmem).1

theorem IsBody.sorted (h : IsBody epsilon ks runs body) (hsorted : ks.Pairwise (· < ·)) :
    (body.map Segment.key).Pairwise (· < ·) := by
  have hrising := rising_ranked (i := 0) hsorted
  rw [← h.flatten, List.pairwise_flatten] at hrising
  have hacross := hrising.2
  have hne := h.ne_nil
  have hfits := h.fits
  clear h hrising
  induction hfits with
  | nil => exact .nil
  | @cons run s runs body hfit hfits ih =>
    obtain ⟨hrun, hacross⟩ := List.pairwise_cons.mp hacross
    refine .cons (fun key hkey => ?_)
      (ih hacross fun run' hrun' => hne run' (List.mem_cons_of_mem run hrun'))
    obtain ⟨s', hs', rfl⟩ := List.mem_map.mp hkey
    obtain ⟨i, hi⟩ := List.mem_iff_getElem?.mp hs'
    obtain ⟨run', hrun', hfit'⟩ := exists_run hfits hi
    have hmem := List.mem_of_getElem? hrun'
    obtain ⟨p, rest, rfl⟩ := List.exists_cons_of_ne_nil (hne run List.mem_cons_self)
    obtain ⟨q, rest', rfl⟩ := List.exists_cons_of_ne_nil (hne run' (List.mem_cons_of_mem _ hmem))
    rw [hfit.key p rfl, hfit'.key q rfl]
    exact (hrun _ hmem p List.mem_cons_self q List.mem_cons_self).lt

theorem IsBody.head (h : IsBody epsilon ks runs body) :
    (body.map Segment.key).head? = ks.head? := by
  have hfits := h.fits
  have hflatten := h.flatten
  cases hfits with
  | nil =>
    have hlength := congrArg List.length hflatten
    rw [length_ranked] at hlength
    rw [List.length_eq_zero_iff.mp hlength.symm]
    rfl
  | @cons run s runs body hfit _ =>
    obtain ⟨p, rest, rfl⟩ := List.exists_cons_of_ne_nil (h.ne_nil run List.mem_cons_self)
    cases ks with
    | nil => simp [ranked] at hflatten
    | cons x ks =>
      rw [List.flatten_cons, List.cons_append, ranked, List.cons.injEq] at hflatten
      rw [List.map_cons, List.head?_cons, hfit.key p rfl, hflatten.1]
      rfl

theorem IsBody.between (h : IsBody epsilon ks runs body) {tail : List Segment}
    (htail : ∀ t ∈ tail.head?, t.intercept = m) (hrank : ks.length + epsilon < 2 ^ 31)
    {next : Segment} (hi : i < body.length) (hnext : (body ++ tail)[i + 1]? = some next) :
    Between epsilon m (runs.drop (i + 1)).flatten next := by
  have hlength := h.fits.length_eq
  rcases Nat.lt_or_ge (i + 1) body.length with hlt | hge
  · rw [List.getElem?_append_left hlt] at hnext
    obtain ⟨run, hrun, hfits⟩ := exists_run h.fits hnext
    have hmem := List.mem_of_getElem? hrun
    obtain ⟨p, rest, rfl⟩ := List.exists_cons_of_ne_nil (h.ne_nil run hmem)
    have hp : p ∈ ranked 0 ks := by
      rw [← h.flatten]
      exact List.mem_flatten_of_mem hmem List.mem_cons_self
    have hrankp := (mem_ranked hp).2
    have hdrop : (runs.drop (i + 1)).flatten = p :: (rest ++ (runs.drop (i + 2)).flatten) := by
      obtain ⟨hlt', hget⟩ := List.getElem?_eq_some_iff.mp hrun
      rw [List.drop_eq_getElem_cons hlt', hget]
      rfl
    obtain ⟨hlo, hhi, hpos⟩ := hfits.intercept p rfl
    refine ⟨fun q hq => ?_, fun q hq => ?_, fun hnil => ?_⟩
    · rw [hdrop] at hq
      obtain rfl : p = q := by simpa using hq
      exact hfits.key p rfl
    · rw [hdrop] at hq
      obtain rfl : p = q := by simpa using hq
      exact ⟨hlo, hhi, hpos, by omega⟩
    · rw [hdrop] at hnil
      cases hnil
  · have hnil : (runs.drop (i + 1)).flatten = [] := by
      rw [List.drop_eq_nil_of_le (by omega)]
      rfl
    rw [List.getElem?_append_right hge, show i + 1 - body.length = 0 by omega,
      ← List.head?_eq_getElem?] at hnext
    rw [hnil]
    exact ⟨by simp, by simp, fun _ => htail next hnext⟩

theorem IsBody.ne (h : IsBody epsilon ks runs body) (hks : ks ≠ []) : body ≠ [] := by
  rintro rfl
  have hhead := h.head
  rw [List.map_nil, List.head?_nil, eq_comm, List.head?_eq_none_iff] at hhead
  exact hks hhead

end Body

section Almost

variable {e k : ℤ} {keys ks : List ℤ}

theorem Almost.ne_nil (h : Almost e keys ks) : ks ≠ [] := by
  rintro rfl
  obtain ⟨x, hx, -⟩ := h.head_lt
  cases hx

theorem Almost.length_le (h : Almost e keys ks) : ks.length ≤ keys.length := by
  rcases h.keys_eq with rfl | ⟨rfl, -⟩
  · exact le_rfl
  · simp

theorem Almost.two_le (h : Almost e keys ks) (hkeys : 2 ≤ keys.length) : 2 ≤ ks.length := by
  rcases h.keys_eq with rfl | ⟨rfl, hlast⟩
  · exact hkeys
  · obtain ⟨x, hx, hlt⟩ := h.head_lt
    match ks, hx, hlast with
    | [y], hx, hlast =>
      obtain rfl : y = x := by simpa using hx
      obtain rfl : y = e := by simpa using hlast
      exact absurd hlt (lt_irrefl _)
    | _ :: _ :: _, _, _ => simp

theorem Almost.head_eq (h : Almost e keys ks) : keys.head? = ks.head? := by
  rcases h.keys_eq with rfl | ⟨rfl, -⟩
  · rfl
  · exact List.head?_append_of_ne_nil _ h.ne_nil

theorem Almost.rank_le (h : Almost e keys ks) (k : ℤ) : rank id k ks ≤ rank id k keys := by
  rcases h.keys_eq with rfl | ⟨rfl, -⟩
  · exact le_rfl
  · exact (List.sublist_append_left ks [e]).countP_le

theorem Almost.rank_eq_length (h : Almost e keys ks) (hlt : ∀ x ∈ ks, x < k) :
    rank id k keys = keys.length := by
  rw [rank, List.countP_eq_length]
  intro x hx
  refine decide_eq_true ?_
  rcases h.keys_eq with rfl | ⟨rfl, hlast⟩
  · exact hlt x hx
  · rcases List.mem_append.mp hx with hx | hx
    · exact hlt x hx
    · rw [List.mem_singleton.mp hx]
      exact hlt e (List.mem_of_getLast? hlast)

theorem Almost.length_le_rank (h : Almost e keys ks) (hk : e ≤ k) :
    keys.length ≤ rank id k keys + 2 := by
  obtain ⟨xs, x, rfl⟩ : ∃ xs x, ks = xs ++ [x] :=
    ⟨ks.dropLast, ks.getLast h.ne_nil, (List.dropLast_concat_getLast h.ne_nil).symm⟩
  have hxs : rank id k xs = xs.length := by
    rw [rank, List.countP_eq_length]
    intro y hy
    have hyx := (List.pairwise_append.mp h.sorted).2.2 y hy x (by simp)
    have hxe := h.le x (by simp)
    exact decide_eq_true (show y < k by omega)
  have hle : rank id k xs ≤ rank id k keys := by
    refine List.Sublist.countP_le ?_
    rcases h.keys_eq with rfl | ⟨rfl, -⟩
    · exact List.sublist_append_left _ _
    · exact (List.sublist_append_left _ _).trans (List.sublist_append_left _ _)
  have hlength : keys.length ≤ xs.length + 2 := by
    rcases h.keys_eq with rfl | ⟨rfl, -⟩ <;> simp
  omega

end Almost

section IsLevel

variable {epsilon m i : ℕ} {e k : ℤ} {keys ks : List ℤ} {runs : List (List (ℤ × ℤ))}
  {body : List Segment} {flat : Bool} {s next : Segment}

theorem product_of_flat (hs : s.slope = 0) (k : ℤ) : s.product k = 0 := by
  rw [Segment.product, hs, zero_mul, roundTo_zero]

def levelEnd (e : ℤ) (m : ℕ) (flat : Bool) : List Segment :=
  (if flat then [⟨e, 0, wrapInt m⟩] else []) ++ [.sentinel m]

theorem mem_levelEnd (hs : s ∈ levelEnd e m flat) :
    s.slope = 0 ∧ s.intercept = wrapInt m ∧ (s.key = e ∨ s.key = maxKey) := by
  rcases List.mem_append.mp hs with hs | hs
  · split at hs
    · rw [List.mem_singleton.mp hs]
      exact ⟨rfl, rfl, .inl rfl⟩
    · cases hs
  · rw [List.mem_singleton.mp hs]
    exact ⟨rfl, rfl, .inr rfl⟩

theorem levelEnd_sorted (he : e ≤ maxKey) :
    ((levelEnd e m flat).map Segment.key).Pairwise (· ≤ ·) := by
  cases flat with
  | false => simp [levelEnd]
  | true => simpa [levelEnd, Segment.sentinel] using he

theorem position_levelEnd (hm : m < 2 ^ 31) (hs : (levelEnd e m flat)[i]? = some s)
    (hnext : (levelEnd e m flat)[i + 1]? = some next) : s.key = e ∧ position s next k = m := by
  obtain ⟨hslope, hintercept, -⟩ := mem_levelEnd (List.mem_of_getElem? hs)
  obtain ⟨-, hintercept', -⟩ := mem_levelEnd (List.mem_of_getElem? hnext)
  have hwrap : wrapInt m = m := wrapInt_of_lt (by omega) (by omega)
  constructor
  · cases flat with
    | false => simp [levelEnd] at hnext
    | true =>
      cases i with
      | zero =>
        obtain rfl : _ = s := by simpa [levelEnd] using hs
        rfl
      | succ i => simp [levelEnd] at hnext
  · have htrunc : truncate 0 = 0 := by simpa using truncate_intCast 0
    rw [position, product_of_flat hslope, hintercept, hintercept', hwrap, htrunc]
    omega

theorem getElem?_levelEnd (hi : body.length ≤ i)
    (hs : (body ++ levelEnd e m flat)[i]? = some s) :
    (levelEnd e m flat)[i - body.length]? = some s := by
  rwa [List.getElem?_append_right hi] at hs

theorem IsBody.isLevel (h : IsBody epsilon ks runs body) (hkeys : Almost e keys ks)
    (he : e ≤ maxKey) (hlength : keys.length + epsilon < 2 ^ 31) (htwo : 2 ≤ epsilon)
    (hepsilon : epsilon ≤ 16) (flat : Bool) :
    IsLevel epsilon keys (body ++ levelEnd e keys.length flat) := by
  have hbody := h.ne hkeys.ne_nil
  have hwrap : wrapInt keys.length = keys.length := wrapInt_of_lt (by omega) (by omega)
  have hle := hkeys.length_le
  have htail : ∀ s ∈ (levelEnd e keys.length flat).head?, s.intercept = keys.length := fun s hs =>
    (mem_levelEnd (List.mem_of_mem_head? hs)).2.1.trans hwrap
  have hepos : 0 ≤ e := by
    obtain ⟨x, hx, hlt⟩ := hkeys.head_lt
    exact (hkeys.nonneg x (List.mem_of_mem_head? hx)).trans hlt.le
  have hnonneg : ∀ s ∈ body ++ levelEnd e keys.length flat, 0 ≤ s.key := by
    intro s hs
    rcases List.mem_append.mp hs with hs | hs
    · exact hkeys.nonneg _ (h.key_mem hs)
    · rcases (mem_levelEnd hs).2.2 with hkey | hkey
      · rwa [hkey]
      · rw [hkey, maxKey]
        norm_num
  refine ⟨?_, ?_, ?_, ?_, hnonneg, fun s hs k hkey hk => ?_, fun i s next k hs hnext hkey hlt hk => ?_,
    fun hsorted i s next k hs hnext hkey hlt hk => ?_⟩
  · have := List.length_pos_iff.mpr hbody
    rw [List.length_append, levelEnd, List.length_append, List.length_singleton]
    omega
  · rw [List.head?_append_of_ne_nil _ hbody, ← List.head?_map, h.head, hkeys.head_eq]
  · rw [levelEnd, ← List.append_assoc, List.getLast?_concat]
    rfl
  · rw [List.map_append, List.pairwise_append]
    refine ⟨(h.sorted hkeys.sorted).imp le_of_lt, levelEnd_sorted he, fun x hx y hy => ?_⟩
    obtain ⟨s, hs, rfl⟩ := List.mem_map.mp hx
    obtain ⟨t, ht, rfl⟩ := List.mem_map.mp hy
    have hse := hkeys.le _ (h.key_mem hs)
    rcases (mem_levelEnd ht).2.2 with hkey | hkey
    · rwa [hkey]
    · rw [hkey]
      exact hse.trans he
  · rcases List.mem_append.mp hs with hs | hs
    · obtain ⟨i, hi⟩ := List.mem_iff_getElem?.mp hs
      obtain ⟨run, head, hfits, -⟩ := h.split hi
      exact hfits.product_lt hepsilon hkey hk
    · rw [product_of_flat (mem_levelEnd hs).1]
      norm_num
  · rcases Nat.lt_or_ge i body.length with hi | hi
    · rw [List.getElem?_append_left hi] at hs
      obtain ⟨run, head, hfits, hhead, -, -, hnarrow, hsplit⟩ := h.split hs
      have hpos := hnonneg s (List.mem_append_left _ (List.mem_of_getElem? hs))
      have hposition := position_le hkeys.sorted hsplit hfits hhead
        (h.between htail (by omega) hi hnext) hnarrow (by omega) hkey hlt (by omega)
      refine hposition.trans ?_
      split
      case isTrue => exact Nat.add_le_add_right (hkeys.rank_le k) epsilon
      case isFalse hnone =>
        rw [hkeys.rank_eq_length fun x hx => not_le.mp fun hkx => hnone ⟨x, hx, hkx⟩]
        exact Nat.le_add_right _ _
    · rw [show i + 1 = i - body.length + 1 + body.length by omega] at hnext
      have hnext' := getElem?_levelEnd (by omega) hnext
      rw [Nat.add_sub_cancel] at hnext'
      obtain ⟨hkeye, hposition⟩ := position_levelEnd (k := k) (by omega)
        (getElem?_levelEnd hi hs) hnext'
      have := hkeys.length_le_rank (k := k) (by omega)
      omega
  · obtain rfl : keys = ks := by
      rcases hkeys.keys_eq with heq | ⟨heq, hlast⟩
      · exact heq
      · rw [heq] at hsorted
        exact absurd ((List.pairwise_append.mp hsorted).2.2 e (List.mem_of_getLast? hlast) e
          (by simp)) (lt_irrefl e)
    rcases Nat.lt_or_ge i body.length with hi | hi
    · rw [List.getElem?_append_left hi] at hs
      obtain ⟨run, head, hfits, hhead, -, -, hnarrow, hsplit⟩ := h.split hs
      have hpos := hnonneg s (List.mem_append_left _ (List.mem_of_getElem? hs))
      exact le_position hkeys.sorted hsplit hfits hhead (h.between htail (by omega) hi hnext)
        hnarrow (by omega) le_rfl hkey hlt (by omega)
    · rw [show i + 1 = i - body.length + 1 + body.length by omega] at hnext
      have hnext' := getElem?_levelEnd (by omega) hnext
      rw [Nat.add_sub_cancel] at hnext'
      obtain ⟨-, hposition⟩ := position_levelEnd (k := k) (by omega)
        (getElem?_levelEnd hi hs) hnext'
      have hrank : rankAbove id k keys ≤ keys.length := rankAbove_le_length
      omega

end IsLevel

end LearnedIndexFramework.Pgm
