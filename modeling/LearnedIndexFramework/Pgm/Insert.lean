import LearnedIndexFramework.Pgm.Levels

/-! An insertion keeps the container valid and changes what it says about one key only. -/

namespace LearnedIndexFramework.Pgm

open Lib

variable {K V : Type}

section Stack

variable {levels : List (List (Item K V))} {tmp : List (Item K V)} {j : ℕ}

def stack (j : ℕ) (tmp : List (Item K V)) (levels : List (List (Item K V))) :
    List (List (Item K V)) :=
  List.replicate j [] ++ tmp :: levels.drop (j + 1)

theorem getElem?_stack (i : ℕ) : (stack j tmp levels)[i]? =
    if i < j then some [] else if i = j then some tmp else levels[i]? := by
  rw [stack]
  split
  · next hlt =>
    rw [List.getElem?_append_left (by rwa [List.length_replicate]),
      List.getElem?_replicate_of_lt hlt]
  · next hge =>
    rw [List.getElem?_append_right (by rw [List.length_replicate]; omega), List.length_replicate]
    split
    · next heq =>
      subst heq
      rw [Nat.sub_self]
      rfl
    · next hne =>
      rw [show i - j = (i - j - 1) + 1 by omega, List.getElem?_cons_succ, List.getElem?_drop]
      congr 1
      omega

theorem length_stack (hj : j < levels.length) : (stack j tmp levels).length = levels.length := by
  rw [stack, List.length_append, List.length_replicate, List.length_cons, List.length_drop]
  omega

theorem drop_stack {m : ℕ} (hm : j < m) : (stack j tmp levels).drop m = levels.drop m := by
  rw [stack, List.drop_append, List.drop_of_length_le (by rw [List.length_replicate]; omega),
    List.nil_append, List.length_replicate, show m - j = (m - j - 1) + 1 by omega,
    List.drop_succ_cons, List.drop_drop]
  congr 1
  omega

theorem mem_stack {level : List (Item K V)} (h : level ∈ stack j tmp levels) :
    level = [] ∨ level = tmp ∨ level ∈ levels := by
  rcases List.mem_append.mp h with h | h
  · exact .inl (List.eq_of_mem_replicate h)
  · exact .inr ((List.mem_cons.mp h).imp_right List.mem_of_mem_drop)

theorem stack_eq (levels : List (List (Item K V))) :
    (List.replicate (j + 1) [] ++ levels.drop (j + 1)).set j tmp = stack j tmp levels := by
  rw [List.set_append_left _ _ (by rw [List.length_replicate]; omega), List.replicate_succ',
    List.set_append_right _ _ (by rw [List.length_replicate]), List.length_replicate,
    Nat.sub_self, List.set_cons_zero, List.append_assoc, List.singleton_append, stack]

end Stack

theorem getElem?_append_nil {levels : List (List (Item K V))} {old : List (Item K V)} {j : ℕ}
    (hold : (levels ++ [[]])[j]? = some old) : levels[j]? = some old ∨ old = [] := by
  rw [List.getElem?_append] at hold
  split at hold
  · exact .inl hold
  · exact .inr (List.mem_singleton.mp (List.mem_of_getElem? hold))

variable [LinearOrder K]

section AddLevel

variable {t : DynamicPgm K V} {old : List (Item K V)} {j : ℕ}

namespace DynamicPgm

theorem eq_nil_of_unused (h : t.Valid) (hj : t.usedLevels ≤ t.minLevel + j)
    (hold : t.levels[j]? = some old) : old = [] := by
  refine h.unused old (List.mem_of_getElem? (i := j - (t.usedLevels - t.minLevel)) ?_)
  rw [List.getElem?_drop, show t.usedLevels - t.minLevel + (j - (t.usedLevels - t.minLevel)) = j by
    have := h.used
    omega]
  exact hold

theorem Valid.addLevel (h : t.Valid) : (t.addLevel t.usedLevels).Valid where
  base := h.base
  buffer := h.buffer
  minIndex := h.minIndex
  used := h.used.trans (Nat.le_succ _)
  two := by
    have := h.two
    simp only [DynamicPgm.addLevel, List.length_append, List.length_singleton]
    omega
  room := by
    have := h.room
    simp only [DynamicPgm.addLevel, List.length_append, List.length_singleton]
    omega
  pgmRoom := by
    have := h.pgmRoom
    simp only [DynamicPgm.addLevel]
    split
    · rw [List.length_append, List.length_singleton]
      omega
    · omega
  ascending level hlevel := by
    rcases List.mem_append.mp hlevel with hlevel | hlevel
    · exact h.ascending level hlevel
    · obtain rfl := List.mem_singleton.mp hlevel
      exact List.Pairwise.nil
  unused level hlevel := by
    simp only [DynamicPgm.addLevel] at hlevel
    rw [Nat.succ_sub h.used, List.drop_append, List.mem_append] at hlevel
    rcases hlevel with hlevel | hlevel
    · refine h.unused level ?_
      rw [Nat.succ_eq_add_one, ← List.drop_drop] at hlevel
      exact List.mem_of_mem_drop hlevel
    · exact List.mem_singleton.mp (List.mem_of_mem_drop hlevel)
  bufferSize items hitems := by
    rcases getElem?_append_nil hitems with hitems | rfl
    · exact h.bufferSize items hitems
    · exact Nat.zero_le _
  size i items hitems hi := by
    rcases getElem?_append_nil hitems with hitems | rfl
    · exact h.size i items hitems hi
    · exact Nat.zero_le _
  synced i items hitems hi hne := by
    rcases getElem?_append_nil hitems with hitems | rfl
    · have hsynced := h.synced i items hitems hi hne
      simp only [DynamicPgm.addLevel]
      split
      · rw [List.getElem?_append_left (List.getElem?_eq_some_iff.mp hsynced).1]
        exact hsynced
      · exact hsynced
    · exact absurd rfl hne

theorem countBelow_addLevel (h : t.Valid) (hj : j ≤ t.levels.length) :
    (t.addLevel t.usedLevels).countBelow j = t.countBelow j := by
  have htwo := h.two
  rw [countBelow, countBelow, DynamicPgm.addLevel]
  dsimp only
  rw [List.drop_append_of_le_length (by omega), List.take_append_of_le_length]
  rw [List.length_drop]
  omega

end DynamicPgm

end AddLevel

variable [DecidableEq V] [Top V]

theorem view_stack {levels : List (List (Item K V))} {tmp : List (Item K V)} {j : ℕ} {k : K} :
    view (stack j tmp levels) k = view (tmp :: levels.drop (j + 1)) k :=
  view_replicate_nil j

theorem view_cons_cons_nil {levels : List (List (Item K V))} {tmp : List (Item K V)} {k : K} :
    view (tmp :: [] :: levels) k = view (tmp :: levels) k := by
  rw [view, view, hitFirst_cons, hitFirst_cons, hitFirst_cons, hit_nil, Option.none_or]

namespace DynamicPgm

variable {t : DynamicPgm K V} {newItem : Item K V} {buffer old : List (Item K V)} {j : ℕ}

section Merge

variable {n : ℕ} {tmp : List (Item K V)} {pgms : List (Option (List K))}

omit [DecidableEq V] [Top V] [LinearOrder K] in
theorem exists_merged (hold : t.levels[j]? = some old) (hj : 0 < j) :
    ∃ n, (if old.isEmpty then t.minLevel + j - 1 else t.minLevel + j) - t.minLevel = n ∧
      ((t.levels.drop 1).take n).flatten.length = t.countBelow j + old.length ∧
      (n + 1 = j ∧ t.levels.drop (1 + n) = [] :: t.levels.drop (j + 1) ∨ n = j) := by
  cases old with
  | nil =>
    refine ⟨j - 1, by simp; omega, rfl, .inl ⟨by omega, ?_⟩⟩
    rw [show 1 + (j - 1) = j by omega]
    obtain ⟨hlt, hget⟩ := List.getElem?_eq_some_iff.mp hold
    rw [← hget]
    exact List.drop_eq_getElem_cons hlt
  | cons item items => exact ⟨j, by simp, countBelow_succ hj hold, .inr rfl⟩

omit [DecidableEq V] [Top V] [LinearOrder K] in
theorem levels_emptied (hbuffer : t.levels[0]? = some buffer)
    (hrest : n + 1 = j ∧ t.levels.drop (1 + n) = [] :: t.levels.drop (j + 1) ∨ n = j) :
    (t.levels.take 1 ++ (List.replicate n [] ++ t.levels.drop (1 + n))).set 0 [] =
      List.replicate (j + 1) [] ++ t.levels.drop (j + 1) := by
  obtain ⟨hlt, rfl⟩ := List.getElem?_eq_some_iff.mp hbuffer
  have hlevels : t.levels = t.levels[0] :: t.levels.drop 1 := List.drop_eq_getElem_cons hlt
  rw [hlevels, List.take_succ_cons, List.take_zero, List.singleton_append, List.set_cons_zero,
    ← hlevels, ← List.cons_append, ← List.replicate_succ]
  rcases hrest with ⟨rfl, hdrop⟩ | rfl
  · rw [hdrop, List.replicate_succ' (n := n + 1), List.append_assoc, List.singleton_append]
  · rw [Nat.add_comm 1 n]

def withItem (newItem : Item K V) (buffer : List (Item K V)) : List (Item K V) :=
  buffer.take (rank Item.first newItem.first buffer) ++
    newItem :: buffer.drop (rank Item.first newItem.first buffer)

omit [DecidableEq V] [Top V] in
theorem length_withItem : (withItem newItem buffer).length = buffer.length + 1 := by
  rw [withItem, List.length_append, List.length_cons, List.length_take, List.length_drop]
  have : rank Item.first newItem.first buffer ≤ buffer.length := rank_le_length
  omega

def builtPgms (t : DynamicPgm K V) (j : ℕ) (tmp : List (Item K V)) (pgms : List (Option (List K))) :
    List (Option (List K)) :=
  if t.hasPgm (t.minLevel + j) then
    pgms.set (t.minLevel + j - t.minIndexLevel) (some (tmp.map Item.first)) else pgms

omit [DecidableEq V] [Top V] [LinearOrder K] in
theorem length_builtPgms : (t.builtPgms j tmp pgms).length = pgms.length := by
  rw [builtPgms]
  split <;> simp

omit [DecidableEq V] [Top V] [LinearOrder K] in
theorem getElem?_builtPgms_self (hle : t.minIndexLevel ≤ t.minLevel + j)
    (hlt : t.minLevel + j < t.minIndexLevel + pgms.length) :
    (t.builtPgms j tmp pgms)[t.minLevel + j - t.minIndexLevel]? =
      some (some (tmp.map Item.first)) := by
  rw [builtPgms, if_pos (by simpa [hasPgm] using hle), List.getElem?_set_self (by omega)]

omit [DecidableEq V] [Top V] [LinearOrder K] in
theorem getElem?_builtPgms_of_lt {i : ℕ} (hlt : t.minLevel + j < i) :
    (t.builtPgms j tmp pgms)[i - t.minIndexLevel]? = pgms[i - t.minIndexLevel]? := by
  rw [builtPgms]
  split
  · next hhas =>
    have hle : t.minIndexLevel ≤ t.minLevel + j := by simpa [hasPgm] using hhas
    rw [List.getElem?_set_ne (by omega)]
  · rfl

theorem pairwiseMerge_of_mergeLevels (h : t.Valid) (hbuffer : t.levels[0]? = some buffer)
    (hold : t.levels[j]? = some old) (hj : 0 < j) (hused : t.minLevel + j < t.usedLevels)
    (hn : (if old.isEmpty then t.minLevel + j - 1 else t.minLevel + j) - t.minLevel = n)
    (hrest : n + 1 = j ∧ t.levels.drop (1 + n) = [] :: t.levels.drop (j + 1) ∨ n = j)
    (hpgms : pgms.length = t.pgms.length)
    (hrun : mergeLevels (t.bufferMaxSize + 1 + t.countBelow j + old.length) n (t.minLevel + 1)
      (withItem newItem buffer) t = .ok (tmp, { t with
        levels := t.levels.take 1 ++ (List.replicate n [] ++ t.levels.drop (1 + n))
        pgms := pgms })) :
    t.pairwiseMerge newItem (t.minLevel + j) (t.bufferMaxSize + 1 + t.countBelow j)
      (rank Item.first newItem.first buffer) = .ok { t with
        levels := stack j tmp t.levels
        pgms := t.builtPgms j tmp pgms } := by
  have hjlt := (List.getElem?_eq_some_iff.mp hold).1
  have hsize := h.bufferSize buffer hbuffer
  have hemptied := levels_emptied hbuffer hrest
  rw [pairwiseMerge]
  refine bind_eq_ok.mpr ⟨buffer, level_min_eq_ok.mpr hbuffer,
    bind_eq_ok.mpr ⟨old, level_eq_ok.mpr hold, ?_⟩⟩
  rw [← withItem, if_neg (by rw [length_withItem]; omega)]
  dsimp only
  rw [hn]
  refine bind_eq_ok.mpr ⟨_, hrun, bind_eq_ok.mpr ⟨_, setLevel_min_eq ?_ [],
    bind_eq_ok.mpr ⟨_, setLevel_eq (j := j) ?_ tmp, ?_⟩⟩⟩
  · dsimp only
    simp only [List.length_append, List.length_take, List.length_replicate, List.length_drop]
    omega
  · dsimp only
    rw [hemptied, List.length_append, List.length_replicate, List.length_drop]
    omega
  · dsimp only
    rw [hemptied, stack_eq]
    refine buildPgm_eq (fun _ => ?_) _
    have := h.pgmRoom
    dsimp only
    omega

theorem pairwiseMerge_eq (h : t.Valid) (hbuffer : t.levels[0]? = some buffer)
    (hold : t.levels[j]? = some old) (hj : 0 < j) (hused : t.minLevel + j < t.usedLevels)
    (hnew : hit Item.first newItem.first buffer = none) :
    ∃ tmp pgms, t.pairwiseMerge newItem (t.minLevel + j) (t.bufferMaxSize + 1 + t.countBelow j)
        (rank Item.first newItem.first buffer) = .ok { t with
          levels := stack j tmp t.levels
          pgms := pgms } ∧
      Ascending tmp ∧
      tmp.length ≤ t.bufferMaxSize + 1 + t.countBelow j + old.length ∧
      (∀ k, view (tmp :: t.levels.drop (j + 1)) k =
        if k = newItem.first then live (some newItem) else view t.levels k) ∧
      pgms.length = t.pgms.length ∧
      (t.minIndexLevel ≤ t.minLevel + j →
        pgms[t.minLevel + j - t.minIndexLevel]? = some (some (tmp.map Item.first))) ∧
      ∀ i, t.minIndexLevel ≤ i → t.minLevel + j < i →
        pgms[i - t.minIndexLevel]? = t.pgms[i - t.minIndexLevel]? := by
  have hlevels : t.levels = buffer :: t.levels.drop 1 := by
    obtain ⟨hlt, rfl⟩ := List.getElem?_eq_some_iff.mp hbuffer
    exact List.drop_eq_getElem_cons hlt
  have hjlt := (List.getElem?_eq_some_iff.mp hold).1
  have hbufferSize := h.bufferSize buffer hbuffer
  have hroom := h.pgmRoom
  have hlength : (withItem newItem buffer).length = buffer.length + 1 := length_withItem
  obtain ⟨hasc, hhit⟩ := (h.ascending buffer (List.mem_of_getElem? hbuffer)).insert hnew
  obtain ⟨n, hn, hcount, hrest⟩ := exists_merged hold hj
  obtain ⟨tmp, pgms, hrun, htmp, hle, hview, hpgms, hframe⟩ :=
    @mergeLevels_spec _ _ _ _ _ t (withItem newItem buffer)
      (t.bufferMaxSize + 1 + t.countBelow j + old.length) n 1 (by omega)
      (fun i hi hlt => by omega) hasc h.ascending h.unused (by omega)
  refine ⟨tmp, _, pairwiseMerge_of_mergeLevels h hbuffer hold hj hused hn hrest hpgms hrun, htmp,
    by omega, fun k => ?_, length_builtPgms.trans hpgms, fun hindex => ?_, fun i hi hlt => ?_⟩
  · have hcons : view (withItem newItem buffer :: t.levels.drop 1) k = _ :=
      view_cons_of_hit (hhit k)
    rw [← hlevels, ← hview k] at hcons
    rw [← hcons]
    rcases hrest with ⟨rfl, hdrop⟩ | rfl
    · rw [hdrop, view_cons_cons_nil]
    · rw [Nat.add_comm 1 n]
  · exact getElem?_builtPgms_self hindex (by omega)
  · exact (getElem?_builtPgms_of_lt hlt).trans (hframe i hi (by omega))

theorem Valid.pairwiseMerge (h : t.Valid) (hbuffer : t.levels[0]? = some buffer)
    (hold : t.levels[j]? = some old) (hj : 0 < j) (hused : t.minLevel + j < t.usedLevels)
    (hnew : hit Item.first newItem.first buffer = none)
    (hfit : t.bufferMaxSize + 1 + t.countBelow j ≤ t.maxSize (t.minLevel + j) - old.length) :
    ∃ t', t.pairwiseMerge newItem (t.minLevel + j) (t.bufferMaxSize + 1 + t.countBelow j)
        (rank Item.first newItem.first buffer) = .ok t' ∧ t'.Valid ∧
      ∀ k, view t'.levels k =
        if k = newItem.first then live (some newItem) else view t.levels k := by
  obtain ⟨tmp, pgms, hrun, hasc, hlength, hview, hpgmsLength, hbuilt, hframe⟩ :=
    pairwiseMerge_eq h hbuffer hold hj hused hnew
  have hjlt := (List.getElem?_eq_some_iff.mp hold).1
  refine ⟨_, hrun, ?_, fun k => view_stack.trans (hview k)⟩
  constructor
  case base => exact h.base
  case buffer => exact h.buffer
  case minIndex => exact h.minIndex
  case used => exact h.used
  case two =>
    dsimp only
    rw [length_stack hjlt]
    exact h.two
  case room =>
    dsimp only
    rw [length_stack hjlt]
    exact h.room
  case pgmRoom =>
    dsimp only
    rw [hpgmsLength]
    exact h.pgmRoom
  case ascending =>
    intro level hlevel
    rcases mem_stack hlevel with rfl | rfl | hlevel
    · exact List.Pairwise.nil
    · exact hasc
    · exact h.ascending level hlevel
  case unused =>
    dsimp only
    rw [drop_stack (by omega)]
    exact h.unused
  case bufferSize =>
    intro items hitems
    dsimp only at hitems
    rw [getElem?_stack, if_pos hj] at hitems
    obtain rfl := Option.some.inj hitems
    exact Nat.zero_le _
  case size =>
    intro i items hitems hi
    dsimp only at hitems
    rw [getElem?_stack] at hitems
    split at hitems
    · obtain rfl := Option.some.inj hitems
      exact Nat.zero_le _
    · split at hitems
      · next heq =>
        obtain rfl := Option.some.inj hitems
        subst heq
        refine hlength.trans ?_
        change _ ≤ t.maxSize (t.minLevel + i)
        have hold' := h.size i old hold hi
        omega
      · exact h.size i items hitems hi
  case synced =>
    intro i items hitems hi hne
    dsimp only at hitems hi ⊢
    rw [getElem?_stack] at hitems
    split at hitems
    · exact absurd (Option.some.inj hitems).symm hne
    · split at hitems
      · next heq =>
        obtain rfl := Option.some.inj hitems
        subst heq
        exact hbuilt hi
      · rw [hframe _ hi (by omega)]
        exact h.synced i items hitems hi hne

end Merge

section Insert

theorem Valid.setBuffer (h : t.Valid) {items : List (Item K V)} {usedLevels : ℕ}
    (hbuffer : t.levels[0]? = some buffer) (hasc : Ascending items)
    (hhit : ∀ k, hit Item.first k items =
      if k = newItem.first then some newItem else hit Item.first k buffer)
    (hlength : items.length ≤ t.bufferMaxSize)
    (hused : usedLevels = max (t.minLevel + 1) t.usedLevels) :
    { t with levels := t.levels.set 0 items, usedLevels }.Valid ∧
      ∀ k, view (t.levels.set 0 items) k =
        if k = newItem.first then live (some newItem) else view t.levels k := by
  have hlevels : t.levels = buffer :: t.levels.drop 1 := by
    obtain ⟨hlt, rfl⟩ := List.getElem?_eq_some_iff.mp hbuffer
    exact List.drop_eq_getElem_cons hlt
  have hmin := h.used
  have hget : ∀ i, 0 < i → (t.levels.set 0 items)[i]? = t.levels[i]? := fun i hi =>
    List.getElem?_set_ne (by omega)
  constructor
  · constructor
    case base => exact h.base
    case buffer => exact h.buffer
    case minIndex => exact h.minIndex
    case used =>
      dsimp only
      omega
    case two =>
      dsimp only
      rw [List.length_set]
      exact h.two
    case room =>
      have htwo := h.two
      have hroom := h.room
      dsimp only
      rw [List.length_set]
      omega
    case pgmRoom =>
      have hpgm := h.pgmRoom
      have hidx := h.minIndex
      dsimp only
      omega
    case ascending =>
      intro level hlevel
      rcases List.mem_or_eq_of_mem_set hlevel with hlevel | rfl
      · exact h.ascending level hlevel
      · exact hasc
    case unused =>
      intro level hlevel
      dsimp only at hlevel
      rw [List.drop_set_of_lt (by omega)] at hlevel
      refine h.unused level ?_
      rw [show usedLevels - t.minLevel = t.usedLevels - t.minLevel +
        (usedLevels - t.usedLevels) by omega, ← List.drop_drop] at hlevel
      exact List.mem_of_mem_drop hlevel
    case bufferSize =>
      intro items' hitems
      dsimp only at hitems
      rw [List.getElem?_set_self (by have := h.two; omega)] at hitems
      obtain rfl := Option.some.inj hitems
      exact hlength
    case size =>
      intro i items' hitems hi
      dsimp only at hitems
      rw [hget i hi] at hitems
      exact h.size i items' hitems hi
    case synced =>
      intro i items' hitems hi hne
      have hidx := h.minIndex
      dsimp only at hitems hi ⊢
      rw [hget i (by omega)] at hitems
      exact h.synced i items' hitems hi hne
  · intro k
    rw [hlevels, List.set_cons_zero]
    exact view_cons_of_hit (hhit k)

theorem Valid.insertBelow (h : t.Valid) (hbuffer : t.levels[0]? = some buffer)
    (hused : t.minLevel < t.usedLevels) (hnew : hit Item.first newItem.first buffer = none) :
    ∃ t', t.insertBelow newItem (rank Item.first newItem.first buffer) = .ok t' ∧ t'.Valid ∧
      ∀ k, view t'.levels k =
        if k = newItem.first then live (some newItem) else view t.levels k := by
  have hroom := h.room
  obtain ⟨j, hj, hj', hfind, hfit⟩ := @findTarget_spec _ _ t
    (t.usedLevels - (t.minLevel + 1)) 1 (t.bufferMaxSize + 1) (by omega) one_pos rfl
  have hjlen : j < t.levels.length := by omega
  have hget := List.getElem?_eq_getElem hjlen
  generalize t.levels[j] = old at hget
  by_cases hlast : t.minLevel + j = t.usedLevels
  · obtain rfl := eq_nil_of_unused h hlast.ge hget
    have hlt := h.countBelow_lt hj hjlen.le
    have hcount := countBelow_addLevel h hjlen.le
    have hlevels : ∀ i, i < t.levels.length →
        (t.addLevel t.usedLevels).levels[i]? = t.levels[i]? := fun i hi =>
      List.getElem?_append_left hi
    obtain ⟨t', hmerge, hvalid, hview⟩ := h.addLevel.pairwiseMerge
      ((hlevels 0 (by omega)).trans hbuffer) ((hlevels j hjlen).trans hget) hj
      (by simp only [DynamicPgm.addLevel]; omega) hnew (by
        rw [countBelow_addLevel h hjlen.le, List.length_nil, Nat.sub_zero]
        change t.bufferMaxSize + 1 + t.countBelow j ≤ t.maxSize (t.minLevel + j)
        omega)
    rw [countBelow_addLevel h hjlen.le] at hmerge
    refine ⟨t', bind_eq_ok.mpr ⟨_, hfind, ?_⟩, hvalid, fun k => ?_⟩
    · dsimp only
      rw [if_pos hlast, hlast]
      exact hlast ▸ hmerge
    · rw [hview k]
      congr 1
      exact view_append_nil
  · have hfit' := hfit.resolve_left (by omega) old hget
    obtain ⟨t', hmerge, hspec⟩ :=
      h.pairwiseMerge hbuffer hget hj (by omega) hnew hfit'
    refine ⟨t', bind_eq_ok.mpr ⟨_, hfind, ?_⟩, hspec⟩
    dsimp only
    rw [if_neg hlast]
    exact hmerge

theorem insert_spec (h : t.Valid) (newItem : Item K V) :
    ∃ t', t.insert newItem = .ok t' ∧ t'.Valid ∧
      ∀ k, view t'.levels k =
        if k = newItem.first then live (some newItem) else view t.levels k := by
  have htwo := h.two
  have hmin := h.used
  obtain ⟨buffer, hbuffer⟩ : ∃ buffer, t.levels[0]? = some buffer :=
    ⟨_, List.getElem?_eq_getElem (by omega)⟩
  have hasc := h.ascending buffer (List.mem_of_getElem? hbuffer)
  suffices hrest : ∃ t', t.insertAt newItem buffer (rank Item.first newItem.first buffer) = .ok t' ∧
      t'.Valid ∧ ∀ k, view t'.levels k =
        if k = newItem.first then live (some newItem) else view t.levels k by
    obtain ⟨t', ht', hspec⟩ := hrest
    exact ⟨t', bind_eq_ok.mpr ⟨buffer, level_min_eq_ok.mpr hbuffer,
      bind_eq_ok.mpr ⟨_, lowerBoundBl_all hasc newItem.first, ht'⟩⟩, hspec⟩
  rw [insertAt]
  split
  case isTrue hany =>
    cases hget : buffer[rank Item.first newItem.first buffer]? with
    | none =>
      rw [hget] at hany
      cases hany
    | some item =>
      rw [hget, Option.any_some, decide_eq_true_eq] at hany
      obtain ⟨hasc', hhit⟩ := hasc.replace hget hany
      have hused : t.usedLevels = max (t.minLevel + 1) t.usedLevels := by
        by_contra hne
        have hempty := eq_nil_of_unused h (j := 0) (by omega) hbuffer
        rw [hempty] at hget
        cases hget
      obtain ⟨hvalid, hview⟩ := h.setBuffer hbuffer hasc' hhit
        (by rw [List.length_set]; exact h.bufferSize buffer hbuffer) hused
      exact ⟨_, setLevel_min_eq (by omega) _, hvalid, hview⟩
  case isFalse hany =>
    have hnew : hit Item.first newItem.first buffer = none := by
      rw [hasc.hit_eq]
      cases hget : buffer[rank Item.first newItem.first buffer]? with
      | none => rfl
      | some item =>
        rw [hget, Option.any_some] at hany
        rw [Option.filter_some, if_neg hany]
    split
    case isTrue hlt =>
      obtain ⟨hasc', hhit⟩ := hasc.insert hnew
      obtain ⟨hvalid, hview⟩ := h.setBuffer
        hbuffer hasc' hhit (by
          rw [List.length_append, List.length_cons, List.length_take, List.length_drop]
          omega) rfl
      refine ⟨_, bind_eq_ok.mpr ⟨_, setLevel_min_eq (by omega) _, rfl⟩, ?_, hview⟩
      dsimp only
      rw [show (if t.usedLevels = t.minLevel then t.minLevel + 1 else t.usedLevels) =
        max (t.minLevel + 1) t.usedLevels by split <;> omega]
      exact hvalid
    case isFalse hge =>
      refine h.insertBelow hbuffer ?_ hnew
      by_contra hle
      have hempty := eq_nil_of_unused h (j := 0) (by omega) hbuffer
      have hpos := h.bufferMaxSize_pos
      rw [hempty, List.length_nil] at hge
      exact hge hpos

end Insert

end DynamicPgm

end LearnedIndexFramework.Pgm
