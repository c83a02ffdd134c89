import LearnedIndexFramework.Lippol.Frame

/-! Empty nodes lie high in the tree.  A node that is built has entries, and `remove`, which may
leave an empty node behind, does not come below the depth at which it gives up. -/

namespace LearnedIndexFramework.Lippol

open Lib Function

variable {fp : Precision} {P : Type}

def Item.Deep : ℕ → Item fp P → Prop
  | depth, .child header items => (128 ≤ depth → slotEntries header.numItems items ≠ []) ∧
      ∀ i < header.numItems, (items i).Deep (depth + 1)
  | _, _ => True

theorem Item.Full.deep {item : Item fp P} (h : item.Full) (depth : ℕ) : item.Deep depth := by
  induction item generalizing depth with
  | empty => trivial
  | data => trivial
  | child header items ih => exact ⟨fun _ => h.1, fun i hi => ih i (h.2 i hi) (depth + 1)⟩

section Deep

variable {key depth : ℕ} {h h' : Header fp} {items : ℕ → Item fp P}

theorem Item.Deep.update (hv : (Item.child h items).Valid) (hd : (Item.child h items).Deep depth)
    (hnum : h'.numItems = h.numItems) {s : Item fp P} (hs : s.Deep (depth + 1))
    (hentries : 128 ≤ depth → (items (h.predictPos key)).entries ≠ [] → s.entries ≠ []) :
    (Item.child h' (update items (h.predictPos key) s)).Deep depth := by
  obtain ⟨before, after, hold, hnew⟩ := entries_around hv key
  refine ⟨fun hdepth hnil => ?_, fun i hi => ?_⟩
  · rw [hnum, hnew] at hnil
    obtain ⟨hbefore, hrest⟩ := List.append_eq_nil_iff.mp hnil
    obtain ⟨hslot, hafter⟩ := List.append_eq_nil_iff.mp hrest
    have hne := hd.1 hdepth
    change (Item.child h items).entries ≠ [] at hne
    rw [hold, hbefore, hafter, List.nil_append, List.append_nil] at hne
    exact hentries hdepth hne hslot
  · by_cases hpos : i = h.predictPos key
    · rw [hpos, update_self]
      exact hs
    · rw [update_of_ne hpos]
      exact hd.2 i (hnum ▸ hi)

theorem Item.Deep.insertAt {item : Item fp P} {value : P} {d : ℕ} {pendingTwo : List (Node fp P)}
    {r : Item fp P × ℤ × ℕ × List (Node fp P)} (hv : item.Valid) (hpool : CleanPool pendingTwo)
    (hr : item.insertAt key value d pendingTwo = .ok r) (hd : item.Deep depth) :
    r.1.Deep depth ∧ r.1.entries ≠ [] := by
  induction item generalizing d depth r with
  | empty =>
    cases hr
    exact ⟨trivial, List.cons_ne_nil _ _⟩
  | data k v =>
    obtain ⟨built, hbuild, hret⟩ := bind_eq_ok.mp hr
    cases hret
    have hfull := (buildTreeTwo_built hpool hbuild).2.full
    exact ⟨hfull.deep depth, hfull.1⟩
  | child h items ih =>
    obtain ⟨-, s, h', n, hs, hbump, hitem, -⟩ := insertAt_child.mp hr
    have hlt := predictPos_lt hv.1.numItems_pos key
    obtain ⟨hdeep, hne⟩ := ih _ (hv.2 _ hlt) hs (hd.2 _ hlt)
    obtain ⟨-, rfl⟩ := bump_eq_ok.mp hbump
    obtain ⟨before, after, -, hnew⟩ := entries_around hv key
    rw [hitem]
    refine ⟨hd.update hv rfl hdeep fun _ _ => hne, ?_⟩
    rw [entries_child, hnew]
    simp [hne]

theorem Item.Deep.rebuildPath (n : ℕ) {item : Item fp P} {pendingTwo : List (Node fp P)}
    {r : Item fp P × List (Node fp P) × List (Node fp P)} (hv : item.Valid)
    (hpool : CleanPool pendingTwo) (hr : rebuildPath key n item pendingTwo = .ok r)
    (hd : item.Deep depth) : r.1.Deep depth := by
  induction n generalizing item r depth with
  | zero =>
    rw [rebuildPath] at hr
    · cases hr
      exact hd
    · simp
  | succ n ih =>
    cases item with
    | empty =>
      cases hr
      exact hd
    | data =>
      cases hr
      exact hd
    | child h items =>
      obtain ⟨b, hneed, -⟩ := bind_eq_ok.mp hr
      cases b with
      | true =>
        rw [rebuildPath_of_need hneed] at hr
        obtain ⟨scanned, hscan, hr⟩ := bind_eq_ok.mp hr
        obtain ⟨built, hbuild, hret⟩ := bind_eq_ok.mp hr
        cases hret
        obtain ⟨nodes, hscan', -⟩ := scanAndDestoryTree_spec { header := h, items } hv
        obtain rfl := Except.ok.inj (hscan'.symm.trans hscan)
        exact (buildTreeBulk_built hv.ascending hpool hbuild).2.full.deep depth
      | false =>
        rw [rebuildPath_of_not_need hneed] at hr
        obtain ⟨below, hbelow, hret⟩ := bind_eq_ok.mp hr
        cases hret
        have hlt := predictPos_lt hv.1.numItems_pos key
        have hentries := (rebuildPath_rebuilt n (hv.2 _ hlt) hpool hbelow).1.entries
        exact hd.update hv rfl (ih (hv.2 _ hlt) hbelow (hd.2 _ hlt)) fun _ hne => hentries ▸ hne

theorem Item.Deep.removeAt {item : Item fp P} {r : Removal fp P} (hv : item.Valid)
    (hr : item.removeAt key depth = .ok (some r)) (hd : item.Deep depth) : r.item.Deep depth := by
  induction item generalizing depth r with
  | empty => cases hr
  | data =>
    cases hr
    trivial
  | child h items ih =>
    have hdepth : depth < 128 := by
      by_contra hge
      rw [Item.removeAt, rtAssert, if_neg hge] at hr
      cases hr
    rw [removeAt_child hdepth] at hr
    obtain ⟨below, hbelow, hret⟩ := bind_eq_ok.mp hr
    obtain ⟨r', rfl, rfl⟩ := Option.map_eq_some_iff.mp (Except.ok.inj hret)
    have hlt := predictPos_lt hv.1.numItems_pos key
    have hslot := ih _ (hv.2 _ hlt) hbelow (hd.2 _ hlt)
    refine hd.update hv rfl ?_ fun hge => absurd hge (by omega)
    split
    · trivial
    · exact hslot

theorem Item.Deep.updateAt {item item' : Item fp P} {value : P} (hv : item.Valid)
    (hr : item.updateAt key value = some item') (hd : item.Deep depth) : item'.Deep depth := by
  induction item generalizing item' depth with
  | empty => cases hr
  | data =>
    cases hr
    trivial
  | child h items ih =>
    obtain ⟨s, hs, rfl⟩ := Option.map_eq_some_iff.mp hr
    have hlt := predictPos_lt hv.1.numItems_pos key
    refine hd.update hv rfl (ih _ (hv.2 _ hlt) hs (hd.2 _ hlt)) fun _ _ => ?_
    rcases reach_cases (items (h.predictPos key)) key with hempty | ⟨k, v, hdata⟩
    · cases (updateAt_of_empty value hempty).symm.trans hs
    · obtain ⟨s', rest, hs', -, -, hnew⟩ := updateAt_of_data value (hv.2 _ hlt) hdata
      obtain rfl := Option.some.inj (hs'.symm.trans hs)
      exact fun hnil => by simp [hnil] at hnew

end Deep

section Index

variable {t t' : Lipp fp P}

theorem Lipp.Valid.deep_insert (hv : t.Valid) (hd : t.root.toItem.Deep 0) {key : ℕ} {value : P}
    (hinsert : t.insert key value = .ok t') : t'.root.toItem.Deep 0 := by
  obtain ⟨r, s, hr, hs, rfl⟩ := insert_eq_ok.mp hinsert
  obtain ⟨hvalid, hpool, -⟩ := hv.insertAt hr
  have hnode : s.1.toNode.toItem = s.1 := by
    rw [← insertAt_isNode hr] at hs
    exact rebuildPath_isNode hs
  change s.1.toNode.toItem.Deep 0
  rw [hnode]
  exact Item.Deep.rebuildPath _ hvalid hpool hs (Item.Deep.insertAt hv.root hv.enter.pool hr hd).1

theorem removeAt_isNode {node : Node fp P} {key depth : ℕ} {r : Removal fp P}
    (hr : node.toItem.removeAt key depth = .ok (some r)) : r.item.toNode.toItem = r.item := by
  obtain ⟨-, -, hr⟩ := bind_eq_ok.mp hr
  obtain ⟨below, -, hret⟩ := bind_eq_ok.mp hr
  cases below with
  | none => cases hret
  | some r' =>
    cases hret
    rfl

theorem remove_root {key : ℕ} {ok : Bool} (hremove : t.remove key = .ok (ok, t')) :
    t'.root = t.root ∨
      ∃ r, t.root.toItem.removeAt key 0 = .ok (some r) ∧ t'.root.toItem = r.item := by
  unfold Lipp.remove at hremove
  dsimp only at hremove
  rw [enter_root] at hremove
  obtain ⟨r, hr, hremove⟩ := bind_eq_ok.mp hremove
  cases r with
  | none =>
    cases hremove
    exact .inl (enter_root t)
  | some r =>
    dsimp only at hremove
    split at hremove
    · cases hremove
    · cases hremove
      exact .inr ⟨r, hr, removeAt_isNode hr⟩

theorem deep_remove (hv : t.Valid) (hd : t.root.toItem.Deep 0) {key : ℕ} {ok : Bool}
    (hremove : t.remove key = .ok (ok, t')) : t'.root.toItem.Deep 0 := by
  rcases remove_root hremove with hroot | ⟨r, hr, hroot⟩
  · rw [hroot]
    exact hd
  · rw [hroot]
    exact Item.Deep.removeAt hv.root hr hd

theorem deep_update (hv : t.Valid) (hd : t.root.toItem.Deep 0) (key : ℕ) (value : P) :
    (t.update key value).2.root.toItem.Deep 0 := by
  unfold Lipp.update
  dsimp only
  rw [enter_root]
  cases hupdate : t.root.toItem.updateAt key value with
  | none =>
    change t.enter.1.root.toItem.Deep 0
    rw [enter_root]
    exact hd
  | some item =>
    obtain ⟨s, -, rfl⟩ := Option.map_eq_some_iff.mp hupdate
    exact Item.Deep.updateAt hv.root hupdate hd

theorem deep_buildTreeNone : (buildTreeNone : Node fp P).toItem.Deep 0 :=
  ⟨nofun, fun _ _ => trivial⟩

theorem deep_load {vs : List (ℕ × P)} (hvs : Ascending vs) (hload : Lipp.load vs = .ok t) :
    t.root.toItem.Deep 0 := by
  have hle : wrapInt vs.length ≤ vs.length := wrapInt_le (by omega)
  rw [Lipp.load] at hload
  generalize wrapInt vs.length = n at hle hload
  by_cases hneg : n < 0
  · cases (bulkLoad_of_neg hneg).symm.trans hload
  obtain rfl | rfl | rfl | hmany : n = 0 ∨ n = 1 ∨ n = 2 ∨ 3 ≤ n := by omega
  · cases hload
    exact deep_buildTreeNone
  · obtain ⟨⟨key, value⟩, vs, rfl⟩ : ∃ v rest, vs = v :: rest :=
      List.exists_cons_of_length_pos (by omega)
    exact construct_valid.deep_insert deep_buildTreeNone hload
  · obtain ⟨⟨key1, value1⟩, rest, rfl⟩ : ∃ v rest, vs = v :: rest :=
      List.exists_cons_of_length_pos (by omega)
    obtain ⟨⟨key2, value2⟩, rest, rfl⟩ : ∃ v rest', rest = v :: rest' :=
      List.exists_cons_of_length_pos (by rw [List.length_cons] at hle; omega)
    obtain ⟨built, hbuild, hret⟩ := bind_eq_ok.mp ((bulkLoad_two rest _ _ _ _).symm.trans hload)
    cases hret
    exact (buildTreeTwo_built construct_valid.pool hbuild).2.full.deep 0
  · rw [bulkLoad_many hvs hmany] at hload
    obtain ⟨built, hbuild, hret⟩ := bind_eq_ok.mp hload
    cases hret
    exact (buildTreeBulk_built (hvs.sublist (List.take_sublist n.toNat vs)) construct_valid.pool
      hbuild).2.full.deep 0

theorem Reachable.deep (ht : Reachable t) : t.root.toItem.Deep 0 := by
  induction ht with
  | load hvs hload => exact deep_load hvs hload
  | @call t t' c r hreach hcall ih =>
    have hv := hreach.valid
    cases c with
    | put key value =>
      obtain ⟨t₁, hinsert, hret⟩ := bind_eq_ok.mp hcall
      cases hret
      exact hv.deep_insert ih hinsert
    | get key =>
      obtain ⟨⟨value, t₁⟩, hat, hret⟩ := bind_eq_ok.mp hcall
      obtain ⟨value', -, hret'⟩ := bind_eq_ok.mp ((at_eq t key).symm.trans hat)
      cases hret
      cases hret'
      rw [enter_root]
      exact ih
    | update key value =>
      cases hcall
      exact deep_update hv ih key value
    | remove key =>
      obtain ⟨⟨ok, t₁⟩, hremove, hret⟩ := bind_eq_ok.mp hcall
      cases hret
      exact deep_remove hv ih hremove

end Index

end LearnedIndexFramework.Lippol
