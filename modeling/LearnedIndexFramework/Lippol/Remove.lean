import LearnedIndexFramework.Lippol.Insert

/-! Looking up, updating and removing: each descends for a key and acts on the slot in which the
descent ends, whatever key is there. -/

namespace LearnedIndexFramework.Lippol

open Lib Function

variable {fp : Precision} {P : Type} {key k depth : ℕ} {v : P}

theorem at_eq_reach (item : Item fp P) : item.at key = (item.reach key).at key := by
  induction item with
  | empty => rfl
  | data => rfl
  | child h items ih => exact ih _

section Update

variable (value : P)

theorem updateAt_of_empty {item : Item fp P} (hreach : item.reach key = .empty) :
    item.updateAt key value = none := by
  induction item with
  | empty => rfl
  | data => cases hreach
  | child h items ih => rw [Item.updateAt, ih _ hreach, Option.map_none]

theorem updateAt_of_data {item : Item fp P} (hv : item.Valid) (hreach : item.reach key = .data k v) :
    ∃ item' rest, item.updateAt key value = some item' ∧ item'.Valid ∧
      item.entries.Perm ((k, v) :: rest) ∧ item'.entries.Perm ((k, value) :: rest) := by
  induction item with
  | empty => cases hreach
  | data k' v' =>
    obtain ⟨rfl, rfl⟩ := Item.data.inj hreach
    exact ⟨.data k' value, [], rfl, trivial, .refl _, .refl _⟩
  | child h items ih =>
    have hlt := predictPos_lt hv.1.numItems_pos key
    obtain ⟨s, rest, hs, hvalid, hold, hnew⟩ := ih _ (hv.2 _ hlt) hreach
    obtain ⟨before, after, haround, hafter⟩ := entries_around hv key
    have hmem : (k, v) ∈ (items (h.predictPos key)).entries := hold.mem_iff.mpr List.mem_cons_self
    have hkey := slot_routed hv hmem
    refine ⟨.child h (update items (h.predictPos key) s), before ++ (rest ++ after), ?_,
      valid_update_same hv hvalid (fun w hw => ?_) ?_, ?_, ?_⟩
    · rw [Item.updateAt, hs, Option.map_some]
    · rcases List.mem_cons.mp (hnew.mem_iff.mp hw) with rfl | hrest
      · exact hkey
      · exact slot_routed hv (hold.mem_iff.mpr (List.mem_cons_of_mem _ hrest))
    · rw [hold.length_eq, hnew.length_eq, List.length_cons, List.length_cons]
    · rw [haround]
      exact ((hold.append_right after).append_left before).trans List.perm_middle
    · rw [entries_child, hafter]
      exact ((hnew.append_right after).append_left before).trans List.perm_middle

end Update

section Remove

theorem removeAt_child {h : Header fp} {items : ℕ → Item fp P} (hdepth : depth < 128) :
    (Item.child h items).removeAt key depth =
      (items (h.predictPos key)).removeAt key (depth + 1) >>= fun below =>
        .ok (below.map fun r => {
          item := .child { h with size := h.size - 1 }
            (update items (h.predictPos key) (if r.emptied then .empty else r.item))
          emptied := (items (h.predictPos key)).isData && h.size - 1 == 0
          nodes := if r.emptied then r.nodes ++ [r.item.toNode] else r.nodes }) := by
  have hassert : rtAssert (depth < 128) "path_size < MAX_DEPTH" = .ok () := if_pos hdepth
  rw [Item.removeAt, hassert]
  cases hbelow : (items (h.predictPos key)).removeAt key (depth + 1) with
  | error => simp [bind, Except.bind, hbelow]
  | ok below => cases below <;> simp [bind, Except.bind, hbelow, pure, Except.pure]

theorem removeAt_deep {item : Item fp P} (hdepth : depth ≤ 128)
    (hdeep : 128 < depth + item.pathSize key) :
    item.removeAt key depth = .error (.rtAssert "path_size < MAX_DEPTH") := by
  induction item generalizing depth with
  | empty => exact absurd hdeep (by simp [Item.pathSize, hdepth])
  | data => exact absurd hdeep (by simp [Item.pathSize, hdepth])
  | child h items ih =>
    rw [Item.pathSize] at hdeep
    by_cases hlt : depth < 128
    · rw [removeAt_child hlt, ih _ (by omega) (by omega)]
      rfl
    · have hassert : rtAssert (depth < 128) "path_size < MAX_DEPTH" =
        .error (.rtAssert "path_size < MAX_DEPTH") := if_neg hlt
      rw [Item.removeAt, hassert]
      rfl

theorem removeAt_of_empty {item : Item fp P} (hdepth : depth + item.pathSize key ≤ 128)
    (hreach : item.reach key = .empty) : item.removeAt key depth = .ok none := by
  induction item generalizing depth with
  | empty => rfl
  | data => cases hreach
  | child h items ih =>
    rw [Item.pathSize] at hdepth
    rw [removeAt_child (by omega), ih _ (by omega) hreach]
    rfl

structure Removed (item : Item fp P) (key k : ℕ) (v : P) (r : Removal fp P) : Prop where
  valid : r.item.Valid
  perm : item.entries.Perm ((k, v) :: r.item.entries)
  emptied : r.emptied = true ↔ item.pathSize key = 1 ∧ item.entries.length = 1
  isNode : 0 < item.pathSize key → r.item.toNode.toItem = r.item
  nodes : ∀ node ∈ r.nodes, Reusable node

theorem Removed.entries_of_emptied {item : Item fp P} {r : Removal fp P} (hr : Removed item key k v r)
    (hemptied : r.emptied = true) : r.item.entries = [] := by
  have hlen := hr.perm.length_eq
  rw [(hr.emptied.mp hemptied).2, List.length_cons] at hlen
  exact List.eq_nil_of_length_eq_zero (by omega)

theorem Removed.entries_slot {item : Item fp P} {r : Removal fp P} (hr : Removed item key k v r) :
    (if r.emptied then Item.empty else r.item).entries = r.item.entries ∧
      (if r.emptied then Item.empty else r.item).Valid := by
  split
  · next hemptied => exact ⟨(hr.entries_of_emptied hemptied).symm, trivial⟩
  · exact ⟨rfl, hr.valid⟩

theorem Removed.nodes_above {item : Item fp P} {r : Removal fp P} (hr : Removed item key k v r) :
    ∀ node ∈ (if r.emptied then r.nodes ++ [r.item.toNode] else r.nodes), Reusable node := by
  split
  · next hemptied =>
    intro node hnode
    rcases List.mem_append.mp hnode with hbelow | hself
    · exact hr.nodes node hbelow
    · obtain rfl := List.mem_singleton.mp hself
      have hpath := (hr.emptied.mp hemptied).1
      have hvalid := hr.valid
      rw [← hr.isNode (by omega)] at hvalid
      exact hvalid.1.two
  · exact hr.nodes

theorem removeAt_of_data {item : Item fp P} (hv : item.Valid)
    (hdepth : depth + item.pathSize key ≤ 128) (hreach : item.reach key = .data k v) :
    ∃ r, item.removeAt key depth = .ok (some r) ∧ Removed item key k v r := by
  induction item generalizing depth with
  | empty => cases hreach
  | data k' v' =>
    obtain ⟨rfl, rfl⟩ := Item.data.inj hreach
    exact ⟨_, rfl, trivial, .refl _, by simp [Item.pathSize], by simp [Item.pathSize], by simp⟩
  | child h items ih =>
    rw [Item.pathSize] at hdepth
    have hlt := predictPos_lt hv.1.numItems_pos key
    have hdepth' : depth + 1 + (items (h.predictPos key)).pathSize key ≤ 128 := by omega
    obtain ⟨r, hr, hremoved⟩ := ih _ (hv.2 _ hlt) hdepth' hreach
    obtain ⟨hentries, hvalid⟩ := hremoved.entries_slot
    obtain ⟨before, after, haround, hafter⟩ := entries_around hv key
    have hlen := hremoved.perm.length_eq
    rw [List.length_cons] at hlen
    refine ⟨_, by rw [removeAt_child (by omega), hr]; rfl, ?_, ?_, ?_, fun _ => rfl, ?_⟩
    · refine valid_update hv _ _ hvalid (fun w hw => slot_routed hv ?_) ?_
      · rw [hentries] at hw
        exact hremoved.perm.mem_iff.mpr (List.mem_cons_of_mem _ hw)
      · rw [hentries, hlen]
        push_cast
        ring
    · rw [haround]
      change List.Perm _ ((k, v) :: slotEntries h.numItems _)
      rw [hafter, hentries]
      exact ((hremoved.perm.append_right after).append_left before).trans List.perm_middle
    · have hsize := hv.size_eq
      have hdata : (items (h.predictPos key)).isData = true ↔
          (items (h.predictPos key)).pathSize key = 0 := by
        cases hslot : items (h.predictPos key) with
        | empty => rw [Item.reach, hslot] at hreach; cases hreach
        | data => simp [Item.isData, Item.pathSize]
        | child => simp [Item.isData, Item.pathSize]
      simp only [Bool.and_eq_true, beq_iff_eq, hdata, Item.pathSize]
      omega
    · exact hremoved.nodes_above

end Remove

end LearnedIndexFramework.Lippol
