import LearnedIndexFramework.Pgm.Advance
import LearnedIndexFramework.Pgm.LowerBound

/-! A scan lists the live items in the order of their keys. -/

namespace LearnedIndexFramework.Pgm

open Function Lib

variable {K V : Type}

section NextPow2

theorem nextPow2_eq {n : ℕ} (hn : 0 < n) : ∃ d, nextPow2 n = 2 ^ d ∧ n ≤ 2 ^ d := by
  rw [nextPow2]
  split
  case isTrue h1 => exact ⟨0, rfl, h1.le⟩
  case isFalse h1 =>
    rw [if_neg (by omega), Nat.shiftLeft_eq, Nat.one_mul]
    refine ⟨_, rfl, ?_⟩
    have hlt := Nat.lt_log2_self (n := n - 1)
    omega

end NextPow2

open DynamicPgm (Cursor)

variable [LinearOrder K] [BoundedOrder K]

section Initialize

variable {search : List K → K → Except Stop (ℕ × ℕ)} {t : DynamicPgm K V} {key : K} {inside : Set K}
  {limit : ℕ}

def remaining (key : K) (levels : List (List (Item K V))) : List (List (Item K V)) :=
  (above key levels).filter fun rest => !rest.isEmpty

omit [BoundedOrder K] in
theorem remaining_cons (key : K) (level : List (Item K V)) (levels : List (List (Item K V))) :
    remaining key (level :: levels) = if (level.filter (key < ·.first)).isEmpty then
      remaining key levels else level.filter (key < ·.first) :: remaining key levels := by
  rw [remaining, above, List.map_cons, List.filter_cons]
  cases (level.filter (key < ·.first)).isEmpty <;> rfl

theorem cursorsAbove_spec (h : t.Valid) (hsearch : t.Searchable inside limit search)
    (hkey : key ∈ inside) {n j : ℕ} (hlen : j + n ≤ t.levels.length) :
    ∃ cs, t.cursorsAbove search key n (t.minLevel + j) = .ok cs ∧
      List.Forall₂ (Points t) cs (remaining key ((t.levels.drop j).take n)) := by
  induction n generalizing j with
  | zero => exact ⟨[], rfl, .nil⟩
  | succ n ih =>
    have hget := List.getElem?_eq_getElem (show j < t.levels.length by omega)
    generalize t.levels[j] = level at hget
    have hdrop : t.levels.drop j = level :: t.levels.drop (j + 1) := by
      obtain ⟨hlt, rfl⟩ := List.getElem?_eq_some_iff.mp hget
      exact List.drop_eq_getElem_cons hlt
    obtain ⟨cs, hrest, hcs⟩ := ih (j := j + 1) (by omega)
    have hasc := h.ascending level (List.mem_of_getElem? hget)
    rw [hdrop, List.take_succ_cons, remaining_cons, ← hasc.drop_rankAbove, DynamicPgm.cursorsAbove,
      DynamicPgm.level_eq_ok.mpr hget]
    simp only [bind, Except.bind]
    split
    case isTrue hempty =>
      obtain rfl := List.isEmpty_iff.mp hempty
      exact ⟨cs, hrest, hcs⟩
    case isFalse hne =>
      obtain ⟨w, hwindow, hlo, hhi, hle⟩ :=
        DynamicPgm.window_spec h hsearch hget (by simpa using hne) hkey
      rw [hwindow]
      simp only
      rw [upperBound_eq hasc (hlo.trans rank_le_rankAbove) hhi hle,
        show t.minLevel + j + 1 = t.minLevel + (j + 1) from rfl, hrest]
      simp only [pure, Except.pure]
      have hend : (level.drop (rankAbove Item.first key level)).isEmpty = true ↔
          rankAbove Item.first key level = level.length := by
        rw [List.isEmpty_iff, List.drop_eq_nil_iff]
        exact ⟨fun hle' => le_antisymm rankAbove_le_length hle', fun heq => heq.ge⟩
      split
      case isTrue heq =>
        rw [if_pos (hend.mpr heq)]
        exact ⟨cs, rfl, hcs⟩
      case isFalse hlt =>
        rw [if_neg (mt hend.mp hlt)]
        exact ⟨_, rfl, .cons ⟨level, DynamicPgm.level_eq_ok.mpr hget, rfl⟩ hcs⟩

theorem insertStarts_spec {cs : List Cursor} {rests : List (List (Item K V))}
    (h : List.Forall₂ (Points t) cs rests) (hne : ∀ rest ∈ rests, rest ≠ []) (i : ℕ)
    (tree : LoserTree K) :
    ∃ tree', Iterator.insertStarts t cs i tree = .ok tree' ∧ tree'.k = tree.k ∧
      (∀ s rest, rests[s]? = some rest →
        (tree'.losers (tree.k + (i + s))).entry = toLex (headKey rest, i + s)) ∧
      ∀ pos, (pos < tree.k + i ∨ tree.k + (i + rests.length) ≤ pos) →
        tree'.losers pos = tree.losers pos := by
  induction h generalizing i tree with
  | nil => exact ⟨tree, rfl, rfl, fun s rest hs => absurd hs (by simp), fun pos _ => rfl⟩
  | @cons c rest cs rests hc hcs ih =>
    cases rest with
    | nil => exact absurd rfl (hne [] List.mem_cons_self)
    | cons x xs =>
      obtain ⟨tree', hrun, hk, hleaves, hframe⟩ :=
        ih (fun rest hrest => hne rest (List.mem_cons_of_mem _ hrest)) (i + 1)
          (tree.insertStart x.first i)
      refine ⟨tree', bind_eq_ok.mpr ⟨x, hc.deref, hrun⟩, hk, fun s rest hs => ?_, fun pos hpos => ?_⟩
      · cases s with
        | zero =>
          rw [List.getElem?_cons_zero, Option.some_inj] at hs
          subst hs
          rw [Nat.add_zero, hframe (tree.k + i) (.inl (Nat.lt_succ_self _)),
            LoserTree.losers_insertStart, update_self]
          rfl
        | succ s =>
          rw [List.getElem?_cons_succ] at hs
          have := hleaves s rest hs
          rw [Nat.add_right_comm i 1 s] at this
          exact this
      · rw [List.length_cons] at hpos
        have hout : pos < (tree.insertStart x.first i).k + (i + 1) ∨
            (tree.insertStart x.first i).k + (i + 1 + rests.length) ≤ pos := by
          change pos < tree.k + (i + 1) ∨ tree.k + (i + 1 + rests.length) ≤ pos
          omega
        rw [hframe pos hout, LoserTree.losers_insertStart, update_of_ne (by omega)]

theorem plays_init {cs : List Cursor} {rests : List (List (Item K V))}
    (h : List.Forall₂ (Points t) cs rests) (hrests : Proper rests)
    (hne : ∀ rest ∈ rests, rest ≠ []) (hsome : rests ≠ []) :
    ∃ tree d, Iterator.insertStarts t cs 0 (.new cs.length) = .ok tree ∧ rests.length ≤ 2 ^ d ∧
      tree.init.Plays d (leaves d rests) := by
  have hlength := h.length_eq
  have hpos : 0 < rests.length := List.length_pos_iff.mpr hsome
  obtain ⟨d, hk, hle⟩ := nextPow2_eq hpos
  obtain ⟨tree, hrun, htree, hleaves, hframe⟩ := insertStarts_spec h hne 0 (.new cs.length)
  have hnew : (LoserTree.new cs.length : LoserTree K).k = 2 ^ d := by
    rw [LoserTree.new, hlength, hk]
  rw [hnew] at htree hleaves hframe
  refine ⟨tree, d, hrun, hle, .init htree (fun q q' hq hqq' hq' hkey => ?_) fun q hq hq' => ?_⟩
  · obtain ⟨s, rfl⟩ := Nat.exists_eq_add_of_le hq
    obtain ⟨s', rfl⟩ := Nat.exists_eq_add_of_le (hq.trans hqq'.le)
    have hlt : s < s' := by omega
    cases hs : rests[s]? with
    | none =>
      have hs' : rests[s']? = none := by
        rw [List.getElem?_eq_none_iff] at hs ⊢
        omega
      rw [leaves, leaves, if_neg (by omega), if_neg (by omega), Nat.add_sub_cancel_left,
        Nat.add_sub_cancel_left, hs, hs']
    | some rest =>
      rw [leaves_of_get d hs] at hkey ⊢
      refine Prod.Lex.le_iff.mpr ?_
      rcases hkey.lt_or_eq with hkey | hkey
      · exact .inl hkey
      · refine .inr ⟨hkey, ?_⟩
        cases hs' : rests[s']? with
        | some rest' =>
          rw [leaves_of_get d hs']
          exact hlt.le
        | none =>
          exfalso
          rw [leaves, if_neg (by omega), Nat.add_sub_cancel_left, hs'] at hkey
          have hmem := List.mem_of_getElem? hs
          cases rest with
          | nil => exact hne [] hmem rfl
          | cons x xs => exact (hrests.below _ hmem x List.mem_cons_self).ne hkey
  · obtain ⟨s, rfl⟩ := Nat.exists_eq_add_of_le hq
    cases hs : rests[s]? with
    | some rest =>
      rw [leaves_of_get d hs]
      have := hleaves s rest hs
      rwa [Nat.zero_add] at this
    | none =>
      have hlen : rests.length ≤ s := List.getElem?_eq_none_iff.mp hs
      rw [leaves, if_neg (by omega), Nat.add_sub_cancel_left, hs, hframe _ (.inr (by omega)),
        LoserTree.losers_new_of_le (by omega) (by rw [hlength, hk]; omega)]
      rfl

omit [BoundedOrder K] in
theorem mem_remaining {levels : List (List (Item K V))} {rest : List (Item K V)}
    (h : rest ∈ remaining key levels) :
    rest ≠ [] ∧ ∃ level ∈ levels, rest = level.filter (key < ·.first) := by
  obtain ⟨hmem, hne⟩ := List.mem_filter.mp h
  exact ⟨by simpa using hne, mem_above hmem⟩

omit [BoundedOrder K] in
theorem hitFirst_remaining {k : K} (levels : List (List (Item K V))) :
    hitFirst Item.first k (remaining key levels) =
      if key < k then hitFirst Item.first k levels else none := by
  have hfilter : hitFirst Item.first k (remaining key levels) =
      hitFirst Item.first k (above key levels) := by
    induction levels with
    | nil => rfl
    | cons level levels ih =>
      rw [remaining_cons, above, List.map_cons, hitFirst_cons]
      split
      · next hempty =>
        rw [List.isEmpty_iff.mp hempty, hit_nil, Option.none_or]
        exact ih
      · rw [hitFirst_cons, ih]
        rfl
  rw [hfilter]
  split
  case isTrue hk => exact hitFirst_above hk levels
  case isFalse hk => exact hitFirst_above_of_le (not_lt.mp hk) levels

omit [BoundedOrder K] in
theorem length_flatten_remaining_le (key : K) (levels : List (List (Item K V))) :
    (remaining key levels).flatten.length ≤ levels.flatten.length := by
  induction levels with
  | nil => exact le_rfl
  | cons level levels ih =>
    rw [remaining_cons, List.flatten_cons, List.length_append]
    split
    · omega
    · have hle := List.length_filter_le (fun item => decide (key < item.first)) level
      rw [List.flatten_cons, List.length_append]
      exact Nat.add_le_add hle ih

theorem proper_remaining (h : t.Valid) (hsearch : t.Searchable inside limit search) (key : K)
    (n : ℕ) :
    Proper (remaining key (t.levels.take n)) where
  ascending rest hrest := by
    obtain ⟨-, level, hlevel, rfl⟩ := mem_remaining hrest
    exact (h.ascending level (List.mem_of_mem_take hlevel)).filter _
  below rest hrest y hy := by
    obtain ⟨-, level, hlevel, rfl⟩ := mem_remaining hrest
    exact hsearch.lt_top _
      (hsearch.mem y ⟨level, List.mem_of_mem_take hlevel, List.mem_of_mem_filter hy⟩)

end Initialize

namespace Iterator

variable {search : List K → K → Except Stop (ℕ × ℕ)} {t : DynamicPgm K V} {it : Iterator K}
  {x : Item K V} {inside : Set K} {limit : ℕ}

theorem lazyInitialize_spec (h : t.Valid) (hsearch : t.Searchable inside limit search)
    (hx : t.deref it.current = .ok x) (hkey : x.first ∈ inside) (hinit : it.initialized = false) :
    ∃ it', it.lazyInitialize search t = .ok it' ∧
      Carries t it' (remaining x.first (t.levels.take (t.usedLevels - t.minLevel))) := by
  have hmin := h.used
  have hroom := h.room
  obtain ⟨cs, hcursors, hpoints⟩ := cursorsAbove_spec (j := 0) (n := t.usedLevels - t.minLevel)
    h hsearch hkey (by omega)
  rw [Nat.add_zero] at hcursors
  rw [List.drop_zero] at hpoints
  have hproper := proper_remaining h hsearch x.first (t.usedLevels - t.minLevel)
  have hne : ∀ rest ∈ remaining x.first (t.levels.take (t.usedLevels - t.minLevel)), rest ≠ [] :=
    fun rest hrest => (mem_remaining hrest).1
  generalize remaining x.first (t.levels.take (t.usedLevels - t.minLevel)) = rests at *
  have hcount : cs.length = rests.countP fun rest => !rest.isEmpty := by
    rw [hpoints.length_eq, List.countP_eq_length.mpr]
    intro rest hrest
    simpa using hne rest hrest
  rw [lazyInitialize, if_neg (by rw [hinit]; exact Bool.false_ne_true), hx]
  simp only [bind, Except.bind]
  rw [hcursors]
  simp only
  by_cases hsome : rests = []
  · subst hsome
    cases hpoints
    exact ⟨_, rfl, .nil, fun h => absurd rfl h, rfl⟩
  · obtain ⟨tree, d, hstarts, hlen, hplays⟩ := plays_init hpoints hproper hne hsome
    rw [hstarts]
    exact ⟨_, rfl, hpoints, fun _ => ⟨d, hlen, hplays⟩, hcount⟩

variable [DecidableEq V] [Top V]

structure Standing (t : DynamicPgm K V) (it : Iterator K) (x : Item K V) : Prop where
  deref : t.deref it.current = .ok x
  rests : it.initialized = true → ∃ rests, Carries t it rests ∧ Proper rests ∧
    rests.flatten.length ≤ t.total ∧
    ∀ k, live (hitFirst Item.first k rests) = if x.first < k then view t.levels k else none

def Follows (t : DynamicPgm K V) (x : Item K V) : Option (Iterator K) → Prop
  | none => IsFirst (view t.levels) (x.first < ·) none
  | some it => ∃ y, Standing t it y ∧
      IsFirst (view t.levels) (x.first < ·) (some (y.first, y.second))

theorem standing_ofCursor {c : Cursor} (hx : t.deref c = .ok x) :
    Standing t (ofCursor c) x :=
  ⟨hx, fun hinit => by cases hinit⟩

theorem Reaches.follows {rests : List (List (Item K V))} {b : Bool} {r : Option (Iterator K)}
    (h : Reaches t rests b r) (hrests : Proper rests) (htotal : rests.flatten.length ≤ t.total)
    (hview : ∀ k, live (hitFirst Item.first k rests) =
      if x.first < k then view t.levels k else none) : Follows t x r := by
  cases r with
  | none =>
    intro k hk
    have := h k
    rwa [hview k, if_pos hk] at this
  | some it =>
    obtain ⟨y, hderef, hdeleted, hhit, hnone, hcarries, -⟩ := h
    have hy := hview y.first
    rw [hhit, live_of_not_deleted hdeleted] at hy
    have hlt : x.first < y.first := by
      by_contra hge
      rw [if_neg hge] at hy
      cases hy
    rw [if_pos hlt] at hy
    refine ⟨y, ⟨hderef, fun _ => ⟨_, hcarries, hrests.above _,
      (length_flatten_above_le _ _).trans htotal, fun k => ?_⟩⟩, hlt, hy.symm, fun k hk hky => ?_⟩
    · split
      case isTrue hk => rw [hitFirst_above hk, hview k, if_pos (hlt.trans hk)]
      case isFalse hk =>
        rw [hitFirst_above_of_le (not_lt.mp hk)]
        rfl
    · have := hnone k hky
      rwa [hview k, if_pos hk] at this

theorem increment_spec (h : t.Valid) (hsearch : t.Searchable inside limit search)
    (hit : Standing t it x) (hkey : x.first ∈ inside) :
    ∃ r, it.increment search t = .ok r ∧ Follows t x r := by
  have hready : ∃ it' rests, it.lazyInitialize search t = .ok it' ∧ Carries t it' rests ∧
      Proper rests ∧ rests.flatten.length ≤ t.total ∧
      ∀ k, live (hitFirst Item.first k rests) =
        if x.first < k then view t.levels k else none := by
    cases hinit : it.initialized with
    | true =>
      obtain ⟨rests, hrests⟩ := hit.rests hinit
      exact ⟨it, rests, by rw [lazyInitialize, if_pos hinit], hrests⟩
    | false =>
      obtain ⟨it', hrun, hcarries⟩ := lazyInitialize_spec h hsearch hit.deref hkey hinit
      refine ⟨it', _, hrun, hcarries, proper_remaining h hsearch _ _, ?_, fun k => ?_⟩
      · refine (length_flatten_remaining_le _ _).trans ?_
        conv_rhs => rw [DynamicPgm.total,
          ← List.take_append_drop (t.usedLevels - t.minLevel) t.levels, List.flatten_append,
          List.length_append]
        exact Nat.le_add_right _ _
      · rw [hitFirst_remaining, DynamicPgm.view_take h]
        split <;> rfl
  obtain ⟨it', rests, hrun, hcarries, hproper, htotal, hview⟩ := hready
  obtain ⟨r, hadvance, hreaches⟩ := hcarries.advance hproper htotal
  exact ⟨r, bind_eq_ok.mpr ⟨it', hrun, hadvance⟩, hreaches.follows hproper htotal hview⟩

end Iterator

namespace DynamicPgm

variable [DecidableEq V] [Top V] {search : List K → K → Except Stop (ℕ × ℕ)}
  {t : DynamicPgm K V} {key : K} {inside : Set K} {limit : ℕ}

omit [DecidableEq V] [Top V] in
theorem mem_of_deref {c : Cursor} {x : Item K V} (hsearch : t.Searchable inside limit search)
    (hx : t.deref c = .ok x) : x.first ∈ inside := by
  obtain ⟨level, hlevel, hitem⟩ := bind_eq_ok.mp hx
  refine hsearch.mem x (holds_of_level hlevel ?_)
  cases hget : level[c.iterator]? with
  | none =>
    rw [hget] at hitem
    cases hitem
  | some y =>
    rw [hget] at hitem
    obtain rfl : y = x := Except.ok.inj hitem
    exact List.mem_of_getElem? hget

theorem scanFrom_spec (h : t.Valid) (hsearch : t.Searchable inside limit search)
    {p : K → Prop} (hp : ∀ k k', p k → k < k' → p k') {n : ℕ} {it : Iterator K} {x : Item K V}
    (hit : it.Standing t x) (hfirst : IsFirst (view t.levels) p (some (x.first, x.second))) :
    ∃ xs, t.scanFrom search n (some it) = .ok xs ∧ Lists (view t.levels) p n xs := by
  induction n generalizing it x p with
  | zero => exact ⟨[], rfl, .zero _ p⟩
  | succ n ih =>
    obtain ⟨r, hincrement, hr⟩ := Iterator.increment_spec h hsearch hit
      (mem_of_deref hsearch hit.deref)
    have hrest : ∃ xs, t.scanFrom search n r = .ok xs ∧
        Lists (view t.levels) (x.first < ·) n xs := by
      cases r with
      | none => exact ⟨[], by cases n <;> rfl, .nil hr n⟩
      | some it' =>
        obtain ⟨y, hit', hy⟩ := hr
        exact ih (fun k k' hk hlt => hk.trans hlt) hit' hy
    obtain ⟨xs, hrun, hxs⟩ := hrest
    exact ⟨(x.first, x.second) :: xs, bind_eq_ok.mpr ⟨x, hit.deref,
      bind_eq_ok.mpr ⟨r, hincrement, bind_eq_ok.mpr ⟨xs, hrun, rfl⟩⟩⟩,
      .cons hfirst (fun k hk => hp _ k hfirst.1 hk) hxs⟩

theorem scan_lists (h : t.Valid) (hsearch : t.Searchable inside limit search) (hkey : key ∈ inside)
    (n : ℕ) : ∃ xs, t.scan search key n = .ok xs ∧ Lists (view t.levels) (key ≤ ·) n xs := by
  obtain ⟨c, hlower, hc⟩ := lowerBound_spec h hsearch hkey
  cases c with
  | none => exact ⟨[], bind_eq_ok.mpr ⟨none, hlower, by cases n <;> rfl⟩, .nil hc n⟩
  | some c =>
    obtain ⟨x, hderef, hfirst⟩ := hc
    obtain ⟨xs, hrun, hxs⟩ := scanFrom_spec (n := n) h hsearch
      (fun k k' hk hlt => hk.trans hlt.le) (Iterator.standing_ofCursor hderef) hfirst
    exact ⟨xs, bind_eq_ok.mpr ⟨some c, hlower, hrun⟩, hxs⟩

end DynamicPgm

end LearnedIndexFramework.Pgm
