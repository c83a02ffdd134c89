import LearnedIndexFramework.Lippol.Remove

/-! The invariant of the whole index: a valid tree, a pool of clean nodes and free lists that may
be recycled.  Each call is specified by what it does to the entries of the tree. -/

namespace LearnedIndexFramework.Lippol

open Lib Function

variable {fp : Precision} {P : Type}

def Lipp.entries (t : Lipp fp P) : List (ℕ × P) := t.root.toItem.entries

def Lipp.Stored (t : Lipp fp P) (key : ℕ) : Prop := ∃ value, (key, value) ∈ t.entries

structure Lipp.Valid (t : Lipp fp P) : Prop where
  root : t.root.toItem.Valid
  pool : CleanPool t.pendingTwo
  free : ∀ epoch, ∀ node ∈ t.ebr.freeLists epoch, Reusable node

section Epoch

theorem recycle_recycled {node : Node fp P} (hnode : Reusable node)
    (htwo : node.header.isTwo = true) : Recycled (recycle node) := by
  obtain ⟨hbuild, hnum, hfixed⟩ := hnode htwo
  exact ⟨htwo, hbuild, rfl, hfixed, hnum, fun _ => rfl⟩

theorem freeForEpoch_clean {nodes pendingTwo : List (Node fp P)}
    (hnodes : ∀ node ∈ nodes, Reusable node) (hpool : CleanPool pendingTwo) :
    CleanPool (freeForEpoch nodes pendingTwo) := by
  unfold freeForEpoch
  induction nodes generalizing pendingTwo with
  | nil => exact hpool
  | cons node nodes ih =>
    rw [List.foldl_cons]
    refine ih (fun n hn => hnodes n (List.mem_cons_of_mem _ hn)) ?_
    split
    · next htwo =>
      intro n hn
      rcases List.mem_cons.mp hn with rfl | hn
      · exact recycle_recycled (hnodes node List.mem_cons_self) htwo
      · exact hpool n hn
    · exact hpool

@[simp] theorem enter_root (t : Lipp fp P) : t.enter.1.root = t.root := by
  unfold Lipp.enter
  dsimp only
  split <;> split <;> rfl

theorem enter_entries (t : Lipp fp P) : t.enter.1.entries = t.entries := by
  rw [Lipp.entries, enter_root, Lipp.entries]

theorem Lipp.Valid.enter {t : Lipp fp P} (hv : t.Valid) : t.enter.1.Valid := by
  have hfreed : Lipp.Valid { t with
      pendingTwo := freeForEpoch (t.ebr.freeLists t.ebr.currentEpoch) t.pendingTwo
      ebr := { t.ebr with
        freeLists := Function.update t.ebr.freeLists t.ebr.currentEpoch []
        threadWantsToAdvance := false
        previouslyAccessedEpoch := some t.ebr.currentEpoch } } := by
    refine ⟨hv.root, freeForEpoch_clean (hv.free _) hv.pool, fun epoch node hnode => ?_⟩
    by_cases heq : epoch = t.ebr.currentEpoch
    · subst heq
      simp at hnode
    · exact hv.free epoch node (by simpa [update_of_ne heq] using hnode)
  unfold Lipp.enter
  dsimp only
  split
  · split
    · exact ⟨hv.root, hv.pool, hv.free⟩
    · exact hv
  · split
    · exact ⟨hfreed.root, hfreed.pool, hfreed.free⟩
    · exact hfreed

theorem scheduleForDeletion_free {epoch : Fin 3} {ebr : Ebr fp P} {node : Node fp P}
    (hfree : ∀ e, ∀ n ∈ ebr.freeLists e, Reusable n) (hnode : Reusable node) :
    ∀ e, ∀ n ∈ (ebr.scheduleForDeletion epoch node).freeLists e, Reusable n := by
  intro e n hn
  change n ∈ Function.update ebr.freeLists epoch (ebr.freeLists epoch ++ [node]) e at hn
  by_cases heq : e = epoch
  · subst heq
    rw [update_self] at hn
    rcases List.mem_append.mp hn with hn | hn
    · exact hfree e n hn
    · obtain rfl := List.mem_singleton.mp hn
      exact hnode
  · rw [update_of_ne heq] at hn
    exact hfree e n hn

theorem Lipp.Valid.safeDeleteNodes {t : Lipp fp P} (hv : t.Valid) (epoch : Fin 3)
    {nodes : List (Node fp P)} (hnodes : ∀ node ∈ nodes, Reusable node) :
    (t.safeDeleteNodes epoch nodes).Valid := by
  refine ⟨hv.root, hv.pool, ?_⟩
  have hfree := hv.free
  change ∀ e, ∀ n ∈ (nodes.foldl (Ebr.scheduleForDeletion epoch) t.ebr).freeLists e, Reusable n
  generalize t.ebr = ebr at hfree
  induction nodes generalizing ebr with
  | nil => exact hfree
  | cons node nodes ih =>
    exact ih (fun n hn => hnodes n (List.mem_cons_of_mem _ hn)) _
      (scheduleForDeletion_free hfree (hnodes node List.mem_cons_self))

end Epoch

section Insert

variable {t t' : Lipp fp P} {key : ℕ} {value : P}

/-- When an insert returns: its key is not the one it meets and gets another slot than that in a new
node, its path is not too long, the counters do not overflow, and a rebuild separates its entries
and does not overflow either. -/
structure Lipp.InsertFits (t : Lipp fp P) (key : ℕ) (value : P) : Prop where
  slots : ∀ k v, t.root.toItem.reach key = .data k v → TwoSlots fp key k
  depth : t.root.toItem.pathSize key ≤ 128
  rebuild : t.root.toItem.RebuildFits key (t.root.toItem.insertToData key)
  separates : t.root.toItem.RebuildSeparates key value (t.root.toItem.insertToData key)

theorem insertAt_isNode {node : Node fp P} {depth : ℕ} {pendingTwo : List (Node fp P)}
    {r : Item fp P × ℤ × ℕ × List (Node fp P)}
    (hr : node.toItem.insertAt key value depth pendingTwo = .ok r) :
    r.1.toNode.toItem = r.1 := by
  obtain ⟨-, s, h', n, -, -, hitem, -⟩ := insertAt_child.mp hr
  rw [hitem]
  rfl

theorem rebuildPath_isNode {n : ℕ} {node : Node fp P} {pendingTwo : List (Node fp P)}
    {r : Item fp P × List (Node fp P) × List (Node fp P)}
    (hr : rebuildPath key n node.toItem pendingTwo = .ok r) : r.1.toNode.toItem = r.1 := by
  cases n with
  | zero =>
    obtain rfl := Except.ok.inj hr
    rfl
  | succ n =>
    obtain ⟨b, hneed, -⟩ := bind_eq_ok.mp hr
    cases b with
    | true =>
      obtain ⟨scanned, -, hr⟩ := bind_eq_ok.mp ((rebuildPath_of_need hneed).symm.trans hr)
      obtain ⟨built, -, hr⟩ := bind_eq_ok.mp hr
      obtain rfl := Except.ok.inj hr
      rfl
    | false =>
      obtain ⟨below, -, hr⟩ := bind_eq_ok.mp ((rebuildPath_of_not_need hneed).symm.trans hr)
      obtain rfl := Except.ok.inj hr
      rfl

theorem insert_eq_ok : t.insert key value = .ok t' ↔
    ∃ r s, t.root.toItem.insertAt key value 0 t.enter.1.pendingTwo = .ok r ∧
      rebuildPath key r.2.2.1 r.1 r.2.2.2 = .ok s ∧
      t' = Lipp.safeDeleteNodes { t.enter.1 with root := s.1.toNode, pendingTwo := s.2.2 }
        t.enter.2 s.2.1 := by
  unfold Lipp.insert
  simp only [bind_eq_ok, enter_root, Prod.exists]
  constructor
  · rintro ⟨item, d, n, pool, hr, item', nodes, pool', hs, hret⟩
    exact ⟨item, d, n, pool, item', nodes, pool', hr, hs, (Except.ok.inj hret).symm⟩
  · rintro ⟨item, d, n, pool, item', nodes, pool', hr, hs, rfl⟩
    exact ⟨item, d, n, pool, hr, item', nodes, pool', hs, rfl⟩

theorem length_lt_of_bump {h h' : Header fp} {items : ℕ → Item fp P} {d : ℤ}
    (hv : (Item.child h items).Valid) (hbump : h.bump d = .ok h') :
    (Item.child h items).entries.length + 1 < 2 ^ 31 := by
  have hsize := hv.size_eq
  have hlt := (bump_eq_ok.mp hbump).1
  omega

theorem Lipp.Valid.insertAt (hv : t.Valid) {r : Item fp P × ℤ × ℕ × List (Node fp P)}
    (hinsert : t.root.toItem.insertAt key value 0 t.enter.1.pendingTwo = .ok r) :
    r.1.Valid ∧ CleanPool r.2.2.2 ∧ r.1.entries.Perm ((key, value) :: t.entries) := by
  obtain ⟨hpool, hvalid, hperm⟩ := insertAt_valid hv.root hv.enter.pool hinsert
  exact ⟨hvalid, hpool, hperm⟩

theorem Lipp.Valid.insert (hv : t.Valid) (hins : t.insert key value = .ok t') :
    t'.Valid ∧ t'.entries.Perm ((key, value) :: t.entries) := by
  obtain ⟨r, s, hinsert, hrebuild, rfl⟩ := insert_eq_ok.mp hins
  obtain ⟨hvalid, hpool, hperm⟩ := hv.insertAt hinsert
  obtain ⟨⟨hpool', hnodes, hvalid', hentries⟩, -⟩ := rebuildPath_rebuilt _ hvalid hpool hrebuild
  have hnode : s.1.toNode.toItem = s.1 := by
    rw [← insertAt_isNode hinsert] at hrebuild
    exact rebuildPath_isNode hrebuild
  constructor
  · have hstate : Lipp.Valid { t.enter.1 with root := s.1.toNode, pendingTwo := s.2.2 } :=
      ⟨by rw [hnode]; exact hvalid', hpool', hv.enter.free⟩
    exact hstate.safeDeleteNodes _ hnodes
  · change s.1.toNode.toItem.entries.Perm _
    rw [hnode, hentries]
    exact hperm

theorem insert_spec (hv : t.Valid) (hfits : t.InsertFits key value) :
    ∃ t', t.insert key value = .ok t' ∧ t'.Valid ∧
      t'.entries.Perm ((key, value) :: t.entries) := by
  obtain ⟨h', b, hbump, -⟩ := hfits.rebuild
  obtain ⟨r, hinsert⟩ := insertAt_returns value hv.root hv.enter.pool hfits.slots
    (by rw [zero_add]; exact hfits.depth) (length_lt_of_bump hv.root hbump)
  obtain ⟨hvalid, hpool, -⟩ := hv.insertAt hinsert
  obtain ⟨-, -, hdata, -⟩ := insertAt_ok hv.enter.pool hinsert (by omega)
  have hrebuild := hfits.rebuild
  have hseparates := hfits.separates
  rw [← hdata] at hrebuild hseparates
  obtain ⟨s, hs⟩ := rebuildPath_returns _ hvalid hpool ((rebuildFits_iff hinsert).mp hrebuild)
    ((rebuildSeparates_iff hv.root hv.enter.pool hinsert).mp hseparates)
  have hins := insert_eq_ok.mpr ⟨r, s, hinsert, hs, rfl⟩
  exact ⟨_, hins, hv.insert hins⟩

theorem insertFits_of_insert (hv : t.Valid) (hins : t.insert key value = .ok t') :
    t.InsertFits key value := by
  obtain ⟨r, s, hinsert, hrebuild, -⟩ := insert_eq_ok.mp hins
  obtain ⟨hslots, hdepth, hdata, -⟩ := insertAt_ok hv.enter.pool hinsert (by omega)
  obtain ⟨hvalid, hpool, -⟩ := hv.insertAt hinsert
  rw [zero_add] at hdepth
  refine ⟨hslots, hdepth, ?_, ?_⟩
  · rw [← hdata]
    exact (rebuildFits_iff hinsert).mpr (pathFits_of_rebuildPath _ hvalid hrebuild)
  · rw [← hdata]
    exact (rebuildSeparates_iff hv.root hv.enter.pool hinsert).mpr
      (rebuildPath_rebuilt _ hvalid hpool hrebuild).2

end Insert

section Descents

variable {t : Lipp fp P} {key k : ℕ} {v : P}

theorem reach_cases (item : Item fp P) (key : ℕ) :
    item.reach key = .empty ∨ ∃ k v, item.reach key = .data k v := by
  cases hreach : item.reach key with
  | empty => exact .inl rfl
  | data k v => exact .inr ⟨k, v, rfl⟩
  | child h items => exact absurd hreach reach_ne_child

theorem stored_iff_reach (hv : t.Valid) :
    t.Stored key ↔ ∃ v, t.root.toItem.reach key = .data key v :=
  exists_congr fun _ => mem_entries_iff_reach hv.root

theorem at_eq (t : Lipp fp P) (key : ℕ) :
    t.at key = (t.root.toItem.reach key).at key >>= fun value => .ok (value, t.enter.1) := by
  unfold Lipp.at
  dsimp only
  rw [enter_root, at_eq_reach]
  rfl

theorem update_of_empty (value : P) (hreach : t.root.toItem.reach key = .empty) :
    t.update key value = (false, t.enter.1) := by
  unfold Lipp.update
  dsimp only
  rw [enter_root, updateAt_of_empty value hreach]

theorem update_of_data (hv : t.Valid) (value : P) (hreach : t.root.toItem.reach key = .data k v) :
    ∃ t' rest, t.update key value = (true, t') ∧ t'.Valid ∧
      t.entries.Perm ((k, v) :: rest) ∧ t'.entries.Perm ((k, value) :: rest) := by
  obtain ⟨item, rest, hupdate, hvalid, hold, hnew⟩ := updateAt_of_data value hv.root hreach
  have hnode : item.toNode.toItem = item := by
    obtain ⟨s, -, rfl⟩ := Option.map_eq_some_iff.mp hupdate
    rfl
  refine ⟨{ t.enter.1 with root := item.toNode }, rest, ?_, ⟨?_, hv.enter.pool, hv.enter.free⟩,
    hold, ?_⟩
  · unfold Lipp.update
    dsimp only
    rw [enter_root, hupdate]
  · rw [hnode]
    exact hvalid
  · change item.toNode.toItem.entries.Perm _
    rw [hnode]
    exact hnew

theorem remove_deep (hdeep : 128 < t.root.toItem.pathSize key) :
    t.remove key = .error (.rtAssert "path_size < MAX_DEPTH") := by
  unfold Lipp.remove
  dsimp only
  rw [enter_root, removeAt_deep (by omega) (by omega)]
  rfl

theorem remove_of_empty (hdepth : t.root.toItem.pathSize key ≤ 128)
    (hreach : t.root.toItem.reach key = .empty) : t.remove key = .ok (false, t.enter.1) := by
  unfold Lipp.remove
  dsimp only
  rw [enter_root, removeAt_of_empty (by omega) hreach]
  rfl

def Lipp.LastInRoot (t : Lipp fp P) (key : ℕ) : Prop :=
  t.root.toItem.pathSize key = 1 ∧ t.entries.length = 1

theorem remove_lastInRoot (hv : t.Valid) (hreach : t.root.toItem.reach key = .data k v)
    (hlast : t.LastInRoot key) : t.remove key = .error .uninitParent := by
  obtain ⟨r, hr, hremoved⟩ := removeAt_of_data hv.root (by rw [zero_add, hlast.1]; omega) hreach
  unfold Lipp.remove
  dsimp only
  rw [enter_root, hr]
  exact if_pos (hremoved.emptied.mpr hlast)

theorem remove_of_data (hv : t.Valid) (hdepth : t.root.toItem.pathSize key ≤ 128)
    (hreach : t.root.toItem.reach key = .data k v) (hlast : ¬ t.LastInRoot key) :
    ∃ t', t.remove key = .ok (true, t') ∧ t'.Valid ∧ t.entries.Perm ((k, v) :: t'.entries) := by
  obtain ⟨r, hr, hremoved⟩ := removeAt_of_data hv.root (by rw [zero_add]; exact hdepth) hreach
  have hnode : r.item.toNode.toItem = r.item := hremoved.isNode (Nat.succ_pos _)
  refine ⟨Lipp.safeDeleteNodes { t.enter.1 with root := r.item.toNode } t.enter.2 r.nodes,
    ?_, ?_, ?_⟩
  · unfold Lipp.remove
    dsimp only
    rw [enter_root, hr]
    exact if_neg fun hemptied => hlast (hremoved.emptied.mp hemptied)
  · have hstate : Lipp.Valid { t.enter.1 with root := r.item.toNode } :=
      ⟨by rw [hnode]; exact hremoved.valid, hv.enter.pool, hv.enter.free⟩
    exact hstate.safeDeleteNodes _ hremoved.nodes
  · change List.Perm _ ((k, v) :: r.item.toNode.toItem.entries)
    rw [hnode]
    exact hremoved.perm

end Descents

section Load

variable {vs : List (ℕ × P)} {t : Lipp fp P}

theorem buildTreeNone_valid : (buildTreeNone : Node fp P).toItem.Valid :=
  ⟨⟨Nat.one_pos, le_rfl, nofun, rfl, fun _ _ _ hmem => absurd hmem (by simp [buildTreeNone])⟩,
    fun _ _ => trivial⟩

theorem construct_valid : (Lipp.construct : Lipp fp P).Valid := by
  refine ⟨buildTreeNone_valid, fun node hnode => ?_, fun epoch node hnode => ?_⟩
  · obtain rfl := List.eq_of_mem_replicate hnode
    exact ⟨rfl, rfl, rfl, rfl, rfl, fun _ => rfl⟩
  · exact absurd hnode List.not_mem_nil

theorem insertFits_of_entries_nil {key : ℕ} {value : P} (hv : t.Valid) (hnil : t.entries = [])
    (hdepth : t.root.toItem.pathSize key ≤ 128) : t.InsertFits key value := by
  have hsmall : t.root.toItem.entries.length + 1 < 64 := by
    change t.entries.length + 1 < 64
    rw [hnil, List.length_nil]
    omega
  refine ⟨fun k v hdata => ?_, hdepth, rebuildFits_of_small hv.root _ hsmall,
    rebuildSeparates_of_small hv.root value _ hsmall⟩
  have hmem := mem_entries_of_reach hv.root hdata
  change (k, v) ∈ t.entries at hmem
  rw [hnil] at hmem
  exact absurd hmem List.not_mem_nil

theorem increasing_iff : increasing vs = true ↔ Ascending vs := by
  have htrans : IsTrans (ℕ × P) fun v w => v.1 < w.1 := ⟨fun _ _ _ => lt_trans⟩
  rw [Ascending, ← List.isChain_iff_pairwise]
  induction vs with
  | nil => simp [increasing]
  | cons v vs ih =>
    cases vs with
    | nil => simp [increasing]
    | cons w vs =>
      rw [increasing, Bool.and_eq_true, decide_eq_true_iff, List.isChain_cons_cons]
      exact and_congr_right fun _ => ih

section Branches

theorem bulkLoad_two (vs : List (ℕ × P)) (key1 key2 : ℕ) (value1 value2 : P) :
    (Lipp.construct : Lipp fp P).bulkLoad ((key1, value1) :: (key2, value2) :: vs) 2 =
      buildTreeTwo key1 value1 key2 value2 Lipp.construct.pendingTwo >>= fun built =>
        .ok { Lipp.construct with root := built.1, pendingTwo := built.2 } := rfl

theorem bulkLoad_many (hvs : Ascending vs) {n : ℤ} (hn : 3 ≤ n) :
    (Lipp.construct : Lipp fp P).bulkLoad vs n =
      buildTreeBulk (vs.take n.toNat) Lipp.construct.pendingTwo >>= fun built =>
        .ok { Lipp.construct with root := built.1, pendingTwo := built.2 } := by
  have hmany : rtAssert (n > 2) "num_keys > 2" = .ok () := if_pos (by omega)
  have hincr : rtAssert (increasing (vs.take n.toNat)) "vs[i].first > vs[i - 1].first" = .ok () :=
    if_pos (increasing_iff.mpr (hvs.sublist (List.take_sublist _ _)))
  rw [Lipp.bulkLoad, if_neg (by omega), if_neg (by omega), if_neg (by omega), hmany]
  change (do rtAssert (increasing (vs.take n.toNat)) "vs[i].first > vs[i - 1].first"; _) = _
  rw [hincr]
  rfl

end Branches

theorem bulkLoad_of_ge (hvs : Ascending vs) {n : ℤ} (hn : 2 ^ 30 ≤ n) (hlen : n ≤ vs.length) :
    (Lipp.construct : Lipp fp P).bulkLoad vs n = .error .intOverflow := by
  rw [bulkLoad_many hvs (by omega), buildTreeBulk_of_ge (by rw [List.length_take]; omega)]
  rfl

theorem bulkLoad_of_neg {n : ℤ} (hn : n < 0) :
    (Lipp.construct : Lipp fp P).bulkLoad vs n = .error (.rtAssert "num_keys > 2") := by
  have hfew : rtAssert (n > 2) "num_keys > 2" = .error (.rtAssert "num_keys > 2") :=
    if_neg (by omega)
  rw [Lipp.bulkLoad, if_neg (by omega), if_neg (by omega), if_neg (by omega), hfew]
  rfl

theorem bulkLoad_loaded (hvs : Ascending vs) {n : ℤ} (hn : n ≤ vs.length)
    (hload : (Lipp.construct : Lipp fp P).bulkLoad vs n = .ok t) :
    t.Valid ∧ t.entries = vs.take n.toNat := by
  by_cases hneg : n < 0
  · cases (bulkLoad_of_neg hneg).symm.trans hload
  obtain ⟨n, rfl⟩ := Int.eq_ofNat_of_zero_le (not_lt.mp hneg)
  rw [Int.toNat_natCast]
  match n, vs, Int.ofNat_le.mp hn with
  | 0, vs, _ =>
    cases hload
    exact ⟨construct_valid, rfl⟩
  | 1, (key, value) :: vs, _ =>
    obtain ⟨hv, hperm⟩ := construct_valid.insert hload
    exact ⟨hv, List.perm_singleton.mp hperm⟩
  | 2, (key1, value1) :: (key2, value2) :: vs, _ =>
    have hlt : key1 < key2 := (List.pairwise_cons.mp hvs).1 _ List.mem_cons_self
    obtain ⟨built, hbuild, hret⟩ := bind_eq_ok.mp ((bulkLoad_two vs _ _ _ _).symm.trans hload)
    cases hret
    obtain ⟨-, hbuilt⟩ := buildTreeTwo_built construct_valid.pool hbuild
    refine ⟨⟨hbuilt.valid, hbuilt.pool, construct_valid.free⟩, hbuilt.entries.trans ?_⟩
    rw [twoEntries, if_neg hlt.not_gt]
    rfl
  | n + 3, vs, _ =>
    obtain ⟨built, hbuild, hret⟩ :=
      bind_eq_ok.mp ((bulkLoad_many hvs (by omega)).symm.trans hload)
    cases hret
    obtain ⟨-, hbuilt⟩ :=
      buildTreeBulk_built (hvs.sublist (List.take_sublist _ _)) construct_valid.pool hbuild
    exact ⟨⟨hbuilt.valid, hbuilt.pool, construct_valid.free⟩, hbuilt.entries⟩

theorem bulkLoad_returns (hvs : Ascending vs) {n : ℕ} (hn : n ≤ vs.length)
    (hsep : 2 ≤ n → Separable fp (vs.take n)) :
    ∃ t, (Lipp.construct : Lipp fp P).bulkLoad vs n = .ok t := by
  match n, vs, hn with
  | 0, vs, _ => exact ⟨_, rfl⟩
  | 1, (key, value) :: vs, _ =>
    have hfits : (Lipp.construct : Lipp fp P).InsertFits key value :=
      insertFits_of_entries_nil construct_valid rfl (show 1 ≤ 128 by decide)
    obtain ⟨t, ht, -⟩ := insert_spec construct_valid hfits
    exact ⟨t, ht⟩
  | 2, (key1, value1) :: (key2, value2) :: vs, _ =>
    obtain ⟨built, hbuild⟩ := buildTreeTwo_returns (hsep le_rfl).twoSlots construct_valid.pool
    exact ⟨_, (bulkLoad_two vs _ _ _ _).trans (bind_eq_ok.mpr ⟨built, hbuild, rfl⟩)⟩
  | n + 3, vs, _ =>
    obtain ⟨built, hbuild⟩ := buildTreeBulk_returns (hsep (by omega))
      (hvs.sublist (List.take_sublist _ _)) construct_valid.pool
    exact ⟨_, (bulkLoad_many hvs (by omega)).trans (bind_eq_ok.mpr ⟨built, hbuild, rfl⟩)⟩

theorem load_spec (hvs : Ascending vs) (hmax : vs.length < 2 ^ 30)
    (hsep : 2 ≤ vs.length → Separable fp vs) :
    ∃ t : Lipp fp P, Lipp.load vs = .ok t ∧ t.Valid ∧ t.entries = vs := by
  obtain ⟨t, ht⟩ := bulkLoad_returns hvs le_rfl (by rwa [List.take_length])
  obtain ⟨hv, hentries⟩ := bulkLoad_loaded hvs le_rfl ht
  rw [Int.toNat_natCast, List.take_length] at hentries
  refine ⟨t, ?_, hv, hentries⟩
  rw [Lipp.load, wrapInt_of_lt (by omega) (by omega)]
  exact ht

theorem separable_of_load (hvs : Ascending vs) (hlen : 2 ≤ vs.length) (hmax : vs.length < 2 ^ 31)
    (hload : (Lipp.load vs : Except Fault (Lipp fp P)) = .ok t) : Separable fp vs := by
  rw [Lipp.load, wrapInt_of_lt (by omega) (by omega)] at hload
  rcases Nat.lt_or_eq_of_le hlen with h3 | h2
  · obtain ⟨built, hbuild, -⟩ := bind_eq_ok.mp ((bulkLoad_many hvs (by omega)).symm.trans hload)
    rw [Int.toNat_natCast, List.take_length] at hbuild
    exact (buildTreeBulk_built hvs construct_valid.pool hbuild).1
  · obtain ⟨⟨key1, value1⟩, ⟨key2, value2⟩, rfl⟩ := List.length_eq_two.mp h2.symm
    obtain ⟨built, hbuild, -⟩ := bind_eq_ok.mp ((bulkLoad_two [] _ _ _ _).symm.trans hload)
    exact .two (buildTreeTwo_built construct_valid.pool hbuild).1

-- These three keys are too close for the `double` model, and two of them get one slot.
example : (Lipp.load [(2 ^ 64 - 3, 1), (2 ^ 64 - 2, 2), (2 ^ 64 - 1, 3)]).map
    (fun _ : Lipp .x86 ℕ => ()) = .error (.rtAssert "node->items[pos].entry_type == 0") := by
  decide +kernel

theorem load_valid (hvs : Ascending vs) (hload : Lipp.load vs = .ok t) : t.Valid :=
  (bulkLoad_loaded hvs (wrapInt_le (by omega)) hload).1

theorem entries_of_load (hvs : Ascending vs) (hmax : vs.length < 2 ^ 31)
    (hload : Lipp.load vs = .ok t) : t.entries = vs := by
  rw [Lipp.load, wrapInt_of_lt (by omega) (by omega)] at hload
  have hentries := (bulkLoad_loaded hvs le_rfl hload).2
  rwa [Int.toNat_natCast, List.take_length] at hentries

end Load

end LearnedIndexFramework.Lippol
