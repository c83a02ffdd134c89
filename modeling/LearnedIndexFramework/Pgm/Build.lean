import LearnedIndexFramework.Pgm.Find

/-! Bulk loading: the first pair of each key goes to one level, which has room for them. -/

namespace LearnedIndexFramework.Pgm

open Lib

variable {K V : Type}

section Logarithms

theorem le_two_pow_ceilLog2 (n : ℕ) : n ≤ 2 ^ ceilLog2 n := by
  rw [ceilLog2]
  split
  · rwa [pow_zero]
  · have hlt := Nat.lt_log2_self (n := n - 1)
    omega

theorem ceilLog2_eight : ceilLog2 8 = 3 := by decide

theorem le_pow_ceilLogBase (n : ℕ) : n ≤ 2 ^ (3 * ceilLogBase 8 n) := by
  refine (le_two_pow_ceilLog2 n).trans (Nat.pow_le_pow_right two_pos ?_)
  rw [ceilLogBase, ceilLog2_eight]
  omega

end Logarithms

namespace DynamicPgm

section Copy

variable [LinearOrder K]

def firstPair (keyValue : List (K × V)) (k : K) : Option V :=
  (hit Prod.fst k keyValue).map Prod.snd

theorem firstPair_cons (pair : K × V) (pairs : List (K × V)) (k : K) :
    firstPair (pair :: pairs) k = if pair.1 = k then some pair.2 else firstPair pairs k := by
  rw [firstPair]
  split
  case isTrue hk => rw [← hk, hit_cons_self, Option.map_some]
  case isFalse hk =>
    rw [hit_cons_of_ne hk]
    rfl

theorem firstPair_eq_none {pairs : List (K × V)} {k : K} (h : ∀ pair ∈ pairs, pair.1 ≠ k) :
    firstPair pairs k = none := by
  rw [firstPair, hit_eq_none.mpr h, Option.map_none]

variable [DecidableEq V] [Top V]

/-- The range ascends, and no key would get the reserved value. -/
structure Loadable (keyValue : List (K × V)) : Prop where
  sorted : keyValue.Pairwise fun pair pair' => pair.1 ≤ pair'.1
  values : ∀ k, firstPair keyValue k ≠ some ⊤

theorem loadable_of_all {keyValue : List (K × V)}
    (hsorted : keyValue.Pairwise fun pair pair' => pair.1 ≤ pair'.1)
    (hvalues : keyValue.all fun pair => pair.2 ≠ ⊤) : Loadable keyValue := by
  refine ⟨hsorted, fun k htop => ?_⟩
  obtain ⟨pair, hpair, hvalue⟩ := Option.map_eq_some_iff.mp htop
  exact of_decide_eq_true (List.all_eq_true.mp hvalues pair (List.mem_of_find?_eq_some hpair))
    hvalue

theorem copyFirsts_spec {last : Item K V} {pairs : List (K × V)}
    (hsorted : ((last.first, last.second) :: pairs).Pairwise fun pair pair' => pair.1 ≤ pair'.1)
    (hvalues : ∀ k, last.first ≠ k → firstPair pairs k ≠ some ⊤) :
    ∃ items, copyFirsts last pairs = .ok items ∧ Ascending items ∧
      items.length ≤ pairs.length + 1 ∧
      (∀ x ∈ items, last.first ≤ x.first ∧
        firstPair ((last.first, last.second) :: pairs) x.first = some x.second) ∧
      ∀ k, (hit Item.first k items).map Item.second =
        firstPair ((last.first, last.second) :: pairs) k := by
  induction pairs generalizing last with
  | nil =>
    refine ⟨[last], rfl, List.pairwise_singleton _ _, le_rfl, fun x hx => ?_, fun k => ?_⟩
    · obtain rfl := List.mem_singleton.mp hx
      exact ⟨le_rfl, by rw [firstPair_cons, if_pos rfl]⟩
    · rw [firstPair_cons]
      split
      · next hk => rw [← hk, hit_cons_self, Option.map_some]
      · next hk =>
        rw [hit_cons_of_ne (show last.first ≠ k from hk)]
        rfl
  | cons pair pairs ih =>
    obtain ⟨key, value⟩ := pair
    obtain ⟨hlast, hsorted⟩ := List.pairwise_cons.mp hsorted
    obtain ⟨hhead, hsorted'⟩ := List.pairwise_cons.mp hsorted
    have hle : last.first ≤ key := hlast (key, value) List.mem_cons_self
    rw [copyFirsts, if_neg (not_lt.mpr hle)]
    by_cases hkey : key = last.first
    · have hskip : ∀ k, firstPair ((last.first, last.second) :: (key, value) :: pairs) k =
          firstPair ((last.first, last.second) :: pairs) k := by
        intro k
        rw [firstPair_cons, firstPair_cons, firstPair_cons, hkey]
        split <;> rfl
      obtain ⟨items, hrun, hasc, hlength, hmem, hhit⟩ := ih
        (List.pairwise_cons.mpr ⟨fun pair hpair => hlast pair (List.mem_cons_of_mem _ hpair),
          hsorted'⟩) fun k hk => by
        have := hvalues k hk
        rwa [firstPair_cons, if_neg (by rwa [hkey])] at this
      refine ⟨items, by rw [if_neg (not_not.mpr hkey)]; exact hrun, hasc,
        hlength.trans (Nat.le_succ _), fun x hx => ?_, fun k => ?_⟩
      · rw [hskip]
        exact hmem x hx
      · rw [hskip]
        exact hhit k
    · have hlt : last.first < key := lt_of_le_of_ne hle (Ne.symm hkey)
      have hvalue : value ≠ ⊤ := by
        have := hvalues key hlt.ne
        rwa [firstPair_cons, if_pos rfl, Ne, Option.some_inj] at this
      obtain ⟨items, hrun, hasc, hlength, hmem, hhit⟩ := @ih ⟨key, value⟩ hsorted fun k hk => by
        by_cases hkl : last.first = k
        · rw [firstPair_eq_none fun pair hpair => (hkl ▸ hlt.trans_le (hhead pair hpair)).ne']
          exact Option.some_ne_none _ ∘ Eq.symm
        · have := hvalues k hkl
          rwa [firstPair_cons, if_neg hk] at this
      have hbehind : ∀ x ∈ items, last.first < x.first := fun x hx => hlt.trans_le (hmem x hx).1
      refine ⟨last :: items, ?_, keyAscending_cons.mpr ⟨hbehind, hasc⟩,
        Nat.succ_le_succ hlength, fun x hx => ?_, fun k => ?_⟩
      · rw [if_pos hkey, Item.ofPair, if_neg hvalue]
        exact bind_eq_ok.mpr ⟨_, rfl, bind_eq_ok.mpr ⟨items, hrun, rfl⟩⟩
      · rw [firstPair_cons]
        rcases List.mem_cons.mp hx with rfl | hx
        · exact ⟨le_rfl, if_pos rfl⟩
        · rw [if_neg (hbehind x hx).ne]
          exact ⟨(hbehind x hx).le, (hmem x hx).2⟩
      · rw [firstPair_cons]
        split
        case isTrue hk => rw [← hk, hit_cons_self, Option.map_some]
        case isFalse hk => rw [hit_cons_of_ne (show last.first ≠ k from hk), hhit k]

def Refuses (e : Stop) : Prop :=
  e = .throws "Range is not sorted" ∨
    e = .throws "The specified value is reserved and cannot be used."

omit [LinearOrder K] in
theorem ofPair_refuses {key : K} {value : V} {e : Stop} (h : Item.ofPair key value = .error e) :
    Refuses e := by
  rw [Item.ofPair] at h
  split at h
  · exact .inr (Except.error.inj h).symm
  · cases h

theorem copyFirsts_refuses {last : Item K V} {pairs : List (K × V)} {e : Stop}
    (h : copyFirsts last pairs = .error e) : Refuses e := by
  induction pairs generalizing last with
  | nil => cases h
  | cons pair pairs ih =>
    obtain ⟨key, value⟩ := pair
    rw [copyFirsts] at h
    split at h
    · exact .inl (Except.error.inj h).symm
    split at h
    · cases hitem : (Item.ofPair key value : Except Stop (Item K V)) with
      | error e' =>
        rw [hitem] at h
        obtain rfl := Except.error.inj h
        exact ofPair_refuses hitem
      | ok item =>
        cases hcopy : copyFirsts item pairs with
        | error e' =>
          rw [hitem] at h
          simp only [bind, Except.bind, hcopy] at h
          obtain rfl := Except.error.inj h
          exact ih hcopy
        | ok items =>
          rw [hitem] at h
          simp only [bind, Except.bind, hcopy] at h
          cases h
    · exact ih h

theorem copyFirsts_sound {last : Item K V} {pairs : List (K × V)} {items : List (Item K V)}
    (hcopy : copyFirsts last pairs = .ok items) :
    ((last.first, last.second) :: pairs).Pairwise (fun pair pair' => pair.1 ≤ pair'.1) ∧
      ∀ k, last.first ≠ k → firstPair pairs k ≠ some ⊤ := by
  induction pairs generalizing last items with
  | nil => exact ⟨List.pairwise_singleton _ _, fun k _ h => by cases h⟩
  | cons pair pairs ih =>
    obtain ⟨key, value⟩ := pair
    rw [copyFirsts] at hcopy
    split at hcopy
    case isTrue => cases hcopy
    case isFalse hnlt =>
      have hle : last.first ≤ key := not_lt.mp hnlt
      by_cases hkey : key = last.first
      · rw [if_neg (not_not.mpr hkey)] at hcopy
        obtain ⟨hsorted, hvalues⟩ := ih hcopy
        obtain ⟨hlast, hsorted'⟩ := List.pairwise_cons.mp hsorted
        refine ⟨List.pairwise_cons.mpr ⟨fun pair hpair => ?_,
          List.pairwise_cons.mpr ⟨fun pair hpair => ?_, hsorted'⟩⟩, fun k hk => ?_⟩
        · rcases List.mem_cons.mp hpair with rfl | hpair
          · exact hle
          · exact hlast pair hpair
        · exact hkey ▸ hlast pair hpair
        · rw [firstPair_cons, if_neg (by rwa [hkey])]
          exact hvalues k hk
      · rw [if_pos hkey] at hcopy
        obtain ⟨item, hitem, hcopy⟩ := bind_eq_ok.mp hcopy
        obtain ⟨items', hcopy, -⟩ := bind_eq_ok.mp hcopy
        rw [Item.ofPair] at hitem
        split at hitem
        case isTrue => cases hitem
        case isFalse hvalue =>
          obtain rfl := Except.ok.inj hitem
          obtain ⟨hsorted, hvalues⟩ := ih hcopy
          obtain ⟨hhead, -⟩ := List.pairwise_cons.mp hsorted
          refine ⟨List.pairwise_cons.mpr ⟨fun pair hpair => ?_, hsorted⟩, fun k hk => ?_⟩
          · rcases List.mem_cons.mp hpair with rfl | hpair
            · exact hle
            · exact hle.trans (hhead pair hpair)
          · rw [firstPair_cons]
            split
            case isTrue => rwa [Ne, Option.some_inj]
            case isFalse hk' => exact hvalues k hk'

end Copy

section Load

variable [LinearOrder K] [DecidableEq V] [Top V]

def loaded (level : ℕ) (items : List (Item K V)) : DynamicPgm K V :=
  { (new : DynamicPgm K V) with
    usedLevels := level + 1
    levels := (List.replicate (max (level + 1) 32 - 3 + 1) []).set (level - 3) items
    pgms := if 8 ≤ level then
      (List.replicate (level + 1 - 8) none).set (level - 8) (some (items.map Item.first)) else [] }

omit [LinearOrder K] [DecidableEq V] [Top V] in
theorem maxSize_loaded (level : ℕ) (items : List (Item K V)) (i : ℕ) :
    (loaded level items).maxSize i = 2 ^ (3 * i) := by
  change 1 <<< (i * ceilLog2 8) = _
  rw [ceilLog2_eight, Nat.shiftLeft_eq, Nat.one_mul, Nat.mul_comm]

omit [DecidableEq V] [Top V] in
theorem valid_loaded {level : ℕ} {items : List (Item K V)} (hlevel : 3 ≤ level)
    (hasc : Ascending items) (hsize : items.length ≤ 2 ^ (3 * level)) :
    (loaded level items).Valid := by
  have hget : ∀ j items', (loaded level items).levels[j]? = some items' →
      j = level - 3 ∧ items' = items ∨ j ≠ level - 3 ∧ items' = [] := by
    intro j items' hj
    rw [loaded] at hj
    by_cases hjl : j = level - 3
    · subst hjl
      have hlt := (List.getElem?_eq_some_iff.mp hj).1
      rw [List.getElem?_set_self (by simpa using hlt)] at hj
      exact .inl ⟨rfl, (Option.some.inj hj).symm⟩
    · rw [List.getElem?_set_ne (Ne.symm hjl)] at hj
      exact .inr ⟨hjl, List.eq_of_mem_replicate (List.mem_of_getElem? hj)⟩
  have hlength : (loaded level items).levels.length = max (level + 1) 32 - 3 + 1 := by
    rw [loaded, List.length_set, List.length_replicate]
  have hbase : ceilLog2 (loaded level items).base = 3 := ceilLog2_eight
  constructor
  case base => omega
  case buffer => rfl
  case minIndex => exact (by decide : 3 < 8)
  case two => omega
  case used =>
    change 3 ≤ level + 1
    omega
  case room =>
    rw [hlength]
    change level + 1 < 3 + _
    omega
  case pgmRoom =>
    change level + 1 ≤ 8 + (loaded level items).pgms.length
    rw [loaded]
    split
    · rw [List.length_set, List.length_replicate]
      omega
    · omega
  case ascending =>
    intro items' hmem
    obtain ⟨j, hj⟩ := List.mem_iff_getElem?.mp hmem
    rcases hget j items' hj with ⟨-, rfl⟩ | ⟨-, rfl⟩
    · exact hasc
    · exact List.Pairwise.nil
  case unused =>
    intro items' hmem
    obtain ⟨j, hj⟩ := List.mem_iff_getElem?.mp hmem
    rw [List.getElem?_drop] at hj
    rcases hget _ items' hj with ⟨heq, -⟩ | ⟨-, rfl⟩
    · change level + 1 - 3 + j = level - 3 at heq
      omega
    · rfl
  case bufferSize =>
    intro items' hj
    rcases hget 0 items' hj with ⟨heq, rfl⟩ | ⟨-, rfl⟩
    · obtain rfl : level = 3 := by omega
      exact hsize.trans (by decide : 2 ^ (3 * 3) ≤ 585)
    · exact Nat.zero_le _
  case size =>
    intro j items' hj _
    rw [maxSize_loaded]
    rcases hget j items' hj with ⟨rfl, rfl⟩ | ⟨-, rfl⟩
    · change items'.length ≤ 2 ^ (3 * (3 + (level - 3)))
      rwa [show 3 + (level - 3) = level by omega]
    · exact Nat.zero_le _
  case synced =>
    intro j items' hj hidx hne
    rcases hget j items' hj with ⟨rfl, rfl⟩ | ⟨-, rfl⟩
    · change 8 ≤ 3 + (level - 3) at hidx
      change (loaded level items').pgms[3 + (level - 3) - 8]? = _
      rw [loaded, if_pos (by omega), show 3 + (level - 3) - 8 = level - 8 by omega,
        List.getElem?_set_self (by rw [List.length_replicate]; omega)]
    · exact absurd rfl hne

theorem view_loaded {level : ℕ} {items : List (Item K V)} (hlevel : 3 ≤ level) (k : K) :
    view (loaded level items).levels k = live (hit Item.first k items) := by
  rw [loaded, List.set_eq_take_append_cons_drop,
    if_pos (by rw [List.length_replicate]; omega), List.take_replicate, List.drop_replicate,
    view_replicate_nil, view, hitFirst_cons,
    hitFirst_eq_none_of_nil fun xs hxs => List.eq_of_mem_replicate hxs, Option.or_none]

omit [DecidableEq V] [Top V] in
theorem valid_empty {n : ℕ} (hn : 1 < n) :
    ({ (new : DynamicPgm K V) with levels := List.replicate n [] } : DynamicPgm K V).Valid := by
  have hnil : ∀ j items, (List.replicate n ([] : List (Item K V)))[j]? = some items →
      items = [] := fun j items hj => List.eq_of_mem_replicate (List.mem_of_getElem? hj)
  constructor
  case buffer => rfl
  case minIndex => exact (by decide : 3 < 8)
  case used => exact le_rfl
  case pgmRoom => exact (by decide : 3 ≤ 8)
  case base =>
    change 0 < ceilLog2 8
    rw [ceilLog2_eight]
    exact three_pos
  case two => rwa [List.length_replicate]
  case room =>
    rw [List.length_replicate]
    exact Nat.lt_add_of_pos_right (by omega)
  case ascending =>
    intro items hmem
    rw [List.eq_of_mem_replicate hmem]
    exact List.Pairwise.nil
  case unused => exact fun items hmem => List.eq_of_mem_replicate (List.mem_of_mem_drop hmem)
  case bufferSize =>
    intro items hj
    rw [hnil 0 items hj]
    exact Nat.zero_le _
  case size =>
    intro j items hj _
    rw [hnil j items hj]
    exact Nat.zero_le _
  case synced => exact fun j items hj _ hne => absurd (hnil j items hj) hne

theorem ofRange_cons_eq {key : K} {value : V} {rest : List (K × V)} {items : List (Item K V)}
    (hvalue : value ≠ ⊤) (hcopy : copyFirsts ⟨key, value⟩ rest = .ok items) :
    ofRange ((key, value) :: rest) =
      .ok (loaded (max (ceilLogBase 8 (rest.length + 1)) 3) items) := by
  set level := max (ceilLogBase 8 (rest.length + 1)) 3 with hlevel
  have hlevel' : 3 ≤ level := le_max_right _ _
  let t : DynamicPgm K V := { (new : DynamicPgm K V) with
    usedLevels := level + 1
    levels := List.replicate (max (level + 1) 32 - 3 + 1) [] }
  have hset : t.setLevel level items = .ok { t with
      levels := (List.replicate (max (level + 1) 32 - 3 + 1) []).set (level - 3) items } := by
    refine if_pos ?_
    change level - 3 < (List.replicate (max (level + 1) 32 - 3 + 1) []).length
    rw [List.length_replicate]
    omega
  refine bind_eq_ok.mpr ⟨⟨key, value⟩, if_neg hvalue, bind_eq_ok.mpr ⟨items, hcopy,
    bind_eq_ok.mpr ⟨_, hset, ?_⟩⟩⟩
  rw [loaded]
  by_cases hpgm : 8 ≤ level
  · rw [if_pos hpgm]
    refine (if_pos ?_).trans (if_pos ?_)
    · exact decide_eq_true hpgm
    change level - 8 < (List.replicate (level + 1 - 8) none).length
    rw [List.length_replicate]
    omega
  · rw [if_neg hpgm]
    refine if_neg ?_
    change ¬ decide (8 ≤ level) = true
    rwa [decide_eq_true_eq]

theorem exists_loaded {pair : K × V} {rest : List (K × V)} (hload : Loadable (pair :: rest)) :
    ∃ items, ofRange (pair :: rest) =
        .ok (loaded (max (ceilLogBase 8 (rest.length + 1)) 3) items) ∧ Ascending items ∧
      items.length ≤ rest.length + 1 ∧
      (∀ x ∈ items, firstPair (pair :: rest) x.first = some x.second) ∧
      ∀ k, (hit Item.first k items).map Item.second = firstPair (pair :: rest) k := by
  obtain ⟨key, value⟩ := pair
  have hvalues := hload.values
  have hvalue : value ≠ ⊤ := by
    have := hvalues key
    rwa [firstPair_cons, if_pos rfl, Ne, Option.some_inj] at this
  obtain ⟨items, hcopy, hasc, hlength, hmem, hhit⟩ := @copyFirsts_spec _ _ _ _ _ ⟨key, value⟩
    rest hload.sorted fun k hk => by
      have := hvalues k
      rwa [firstPair_cons, if_neg hk] at this
  exact ⟨items, ofRange_cons_eq hvalue hcopy, hasc, hlength, fun x hx => (hmem x hx).2, hhit⟩

theorem ofRange_spec {keyValue : List (K × V)} (hload : Loadable keyValue) :
    ∃ t, ofRange keyValue = .ok t ∧ t.Valid ∧
      (∀ item, t.Holds item → firstPair keyValue item.first = some item.second) ∧
      ∀ k, view t.levels k = firstPair keyValue k := by
  cases keyValue with
  | nil =>
    have hlevels : 1 < max (max (ceilLogBase 8 0) 3 + 1) 32 - 3 + 1 := by omega
    refine ⟨_, rfl, valid_empty hlevels, ?_, fun k => ?_⟩
    · rintro item ⟨level, hlevel, hitem⟩
      rw [List.eq_of_mem_replicate hlevel] at hitem
      cases hitem
    · rw [view, hitFirst_eq_none_of_nil fun xs hxs => List.eq_of_mem_replicate hxs]
      rfl
  | cons pair rest =>
    obtain ⟨items, hrun, hasc, hlength, hmem, hhit⟩ := exists_loaded hload
    set level := max (ceilLogBase 8 (rest.length + 1)) 3 with hlevel
    have hroom : items.length ≤ 2 ^ (3 * level) :=
      hlength.trans ((le_pow_ceilLogBase _).trans
        (Nat.pow_le_pow_right two_pos (Nat.mul_le_mul_left 3 (le_max_left _ _))))
    refine ⟨_, hrun, valid_loaded (le_max_right _ _) hasc hroom, ?_, fun k => ?_⟩
    · rintro item ⟨items', hitems', hitem⟩
      rcases List.mem_or_eq_of_mem_set hitems' with hnil | rfl
      · rw [List.eq_of_mem_replicate hnil] at hitem
        cases hitem
      · exact hmem item hitem
    · rw [view_loaded (le_max_right _ _), ← hhit k]
      cases hhit' : hit Item.first k items with
      | none => rfl
      | some x =>
        refine live_of_not_deleted ?_
        have hx := hmem x (List.mem_of_find?_eq_some hhit')
        rw [Item.deleted, decide_eq_false_iff_not]
        intro htop
        exact hload.values _ (htop ▸ hx)

theorem loadable_of_ofRange {keyValue : List (K × V)} {t : DynamicPgm K V}
    (ht : ofRange keyValue = .ok t) : Loadable keyValue := by
  cases keyValue with
  | nil => exact ⟨List.Pairwise.nil, fun k h => by cases h⟩
  | cons pair rest =>
    obtain ⟨key, value⟩ := pair
    obtain ⟨item, hitem, ht⟩ := bind_eq_ok.mp ht
    obtain ⟨items, hcopy, -⟩ := bind_eq_ok.mp ht
    rw [Item.ofPair] at hitem
    split at hitem
    case isTrue => cases hitem
    case isFalse hvalue =>
      obtain rfl := Except.ok.inj hitem
      obtain ⟨hsorted, hvalues⟩ := copyFirsts_sound hcopy
      refine ⟨hsorted, fun k => ?_⟩
      rw [firstPair_cons]
      split
      case isTrue => rwa [Ne, Option.some_inj]
      case isFalse hk => exact hvalues k hk

theorem ofRange_refuses {keyValue : List (K × V)} {e : Stop} (hrun : ofRange keyValue = .error e) :
    Refuses e := by
  cases keyValue with
  | nil => cases hrun
  | cons pair rest =>
    obtain ⟨key, value⟩ := pair
    cases hitem : (Item.ofPair key value : Except Stop (Item K V)) with
    | error e' =>
      rw [ofRange, hitem] at hrun
      obtain rfl := Except.error.inj hrun
      exact ofPair_refuses hitem
    | ok item =>
      cases hcopy : copyFirsts item rest with
      | error e' =>
        rw [ofRange, hitem] at hrun
        simp only [bind, Except.bind, hcopy] at hrun
        obtain rfl := Except.error.inj hrun
        exact copyFirsts_refuses hcopy
      | ok items =>
        rw [Item.ofPair] at hitem
        split at hitem
        case isTrue => cases hitem
        case isFalse hvalue =>
          obtain rfl := Except.ok.inj hitem
          rw [ofRange_cons_eq hvalue hcopy] at hrun
          cases hrun

theorem ofRange_returns (keyValue : List (K × V)) :
    match ofRange keyValue with
    | .ok t => Loadable keyValue ∧ t.Valid ∧ ∀ k, view t.levels k = firstPair keyValue k
    | .error e => ¬ Loadable keyValue ∧ Refuses e := by
  cases hrun : ofRange keyValue with
  | ok t =>
    have hload := loadable_of_ofRange hrun
    obtain ⟨t', hrun', hvalid, -, hview⟩ := ofRange_spec hload
    obtain rfl := Except.ok.inj (hrun'.symm.trans hrun)
    exact ⟨hload, hvalid, hview⟩
  | error e =>
    refine ⟨fun hload => ?_, ofRange_refuses hrun⟩
    obtain ⟨t, hrun', -⟩ := ofRange_spec hload
    cases hrun'.symm.trans hrun

omit [DecidableEq V] [Top V] in
theorem mem_of_firstPair {keyValue : List (K × V)} {k : K} {v : V}
    (h : firstPair keyValue k = some v) : ∃ pair ∈ keyValue, pair.1 = k := by
  obtain ⟨pair, hhit, -⟩ := Option.map_eq_some_iff.mp h
  exact ⟨pair, List.mem_of_find?_eq_some hhit, by simpa using List.find?_some hhit⟩

theorem ofRange_pgms {keyValue : List (K × V)} {t : DynamicPgm K V}
    (hrun : ofRange keyValue = .ok t) {keys : List K} (hkeys : some keys ∈ t.pgms) :
    keys.Pairwise (· < ·) ∧ keys ≠ [] ∧ keys.length ≤ keyValue.length ∧
      ∀ k ∈ keys, ∃ pair ∈ keyValue, pair.1 = k := by
  cases keyValue with
  | nil =>
    cases hrun
    cases hkeys
  | cons pair rest =>
    obtain ⟨items, hrun', hasc, hlength, hmem, hhit⟩ := exists_loaded (loadable_of_ofRange hrun)
    obtain rfl := Except.ok.inj (hrun'.symm.trans hrun)
    have hitems : items ≠ [] := by
      rintro rfl
      have hfirst := hhit pair.1
      rw [firstPair_cons, if_pos rfl] at hfirst
      cases hfirst
    simp only [loaded] at hkeys
    split at hkeys
    · rcases List.mem_or_eq_of_mem_set hkeys with hnone | hsome
      · cases List.eq_of_mem_replicate hnone
      · obtain rfl := Option.some.inj hsome
        refine ⟨List.pairwise_map.mpr hasc, by simpa using hitems, by simpa using hlength, ?_⟩
        intro k hk
        obtain ⟨x, hx, rfl⟩ := List.mem_map.mp hk
        exact mem_of_firstPair (hmem x hx)
    · cases hkeys

end Load

end DynamicPgm

end LearnedIndexFramework.Pgm
