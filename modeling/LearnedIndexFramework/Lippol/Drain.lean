import LearnedIndexFramework.Lib.Run
import LearnedIndexFramework.Lippol.Depth

/-! Removing all keys one after the other.  A removal does not move the other keys, so the paths
of the loaded tree decide whether every removal returns. -/

namespace LearnedIndexFramework.Lippol

open Lib Function

variable {fp : Precision} {P : Type}

section Paths

variable {item : Item fp P} {key depth : ℕ}

theorem Item.Deep.exists_mem (hv : item.Valid) (hd : item.Deep depth) (hdepth : depth ≤ 128)
    (hlong : 128 < depth + item.pathSize key) :
    ∃ v ∈ item.entries, 128 < depth + item.pathSize v.1 := by
  induction item generalizing depth with
  | empty => exact absurd hlong (by simp [Item.pathSize, hdepth])
  | data => exact absurd hlong (by simp [Item.pathSize, hdepth])
  | child h items ih =>
    rw [Item.pathSize] at hlong
    by_cases hge : 128 ≤ depth
    · obtain ⟨v, hmem⟩ := List.exists_mem_of_ne_nil _ (hd.1 hge)
      refine ⟨v, hmem, ?_⟩
      rw [Item.pathSize]
      omega
    · have hlt := predictPos_lt hv.1.numItems_pos key
      have hlong' : 128 < depth + 1 + (items (h.predictPos key)).pathSize key := by omega
      obtain ⟨v, hmem, hpath⟩ := ih _ (hv.2 _ hlt) (hd.2 _ hlt) (by omega) hlong'
      refine ⟨v, mem_slotEntries.mpr ⟨_, hlt, hmem⟩, ?_⟩
      rw [Item.pathSize, slot_routed hv hmem]
      omega

theorem removeAt_paths {r : Removal fp P} (hv : item.Valid)
    (hr : item.removeAt key depth = .ok (some r)) :
    (∀ k, r.item.pathSize k ≤ item.pathSize k) ∧
      ∀ v ∈ r.item.entries, v ∈ item.entries ∧ r.item.pathSize v.1 = item.pathSize v.1 := by
  induction item generalizing depth r with
  | empty => cases hr
  | data =>
    cases hr
    exact ⟨fun _ => le_rfl, nofun⟩
  | child h items ih =>
    have hdepth : depth < 128 := by
      by_contra hge
      rw [Item.removeAt, rtAssert, if_neg hge] at hr
      cases hr
    rw [removeAt_child hdepth] at hr
    obtain ⟨below, hbelow, hret⟩ := bind_eq_ok.mp hr
    obtain ⟨r', rfl, rfl⟩ := Option.map_eq_some_iff.mp (Except.ok.inj hret)
    have hlt := predictPos_lt hv.1.numItems_pos key
    obtain ⟨hle, hstay⟩ := ih _ (hv.2 _ hlt) hbelow
    refine ⟨fun k => ?_, fun v hmem => ?_⟩
    · change (update items (h.predictPos key) _ (h.predictPos k)).pathSize k + 1 ≤
        (items (h.predictPos k)).pathSize k + 1
      by_cases hk : h.predictPos k = h.predictPos key
      · rw [hk, update_self]
        split
        · exact Nat.succ_le_succ (Nat.zero_le _)
        · exact Nat.succ_le_succ (hle k)
      · rw [update_of_ne hk]
    · obtain ⟨i, hi, hmem⟩ := mem_slotEntries.mp hmem
      change v ∈ slotEntries h.numItems items ∧
        (update items (h.predictPos key) _ (h.predictPos v.1)).pathSize v.1 + 1 =
          (items (h.predictPos v.1)).pathSize v.1 + 1
      by_cases hpos : i = h.predictPos key
      · subst hpos
        rw [update_self] at hmem
        split at hmem
        · cases hmem
        · next hemptied =>
          obtain ⟨hold, hpath⟩ := hstay v hmem
          rw [slot_routed hv hold, update_self, if_neg hemptied, hpath]
          exact ⟨mem_slotEntries.mpr ⟨_, hlt, hold⟩, rfl⟩
      · rw [update_of_ne hpos] at hmem
        rw [hv.1.routed i hi v hmem, update_of_ne hpos]
        exact ⟨mem_slotEntries.mpr ⟨i, hi, hmem⟩, rfl⟩

end Paths

section Remove

variable {t t' : Lipp fp P} {key : ℕ} {ok : Bool}

theorem remove_paths (hv : t.Valid) (hremove : t.remove key = .ok (ok, t')) :
    (∀ k, t'.root.toItem.pathSize k ≤ t.root.toItem.pathSize k) ∧
      ∀ v ∈ t'.entries, t'.root.toItem.pathSize v.1 = t.root.toItem.pathSize v.1 := by
  rcases remove_root hremove with hroot | ⟨r, hr, hroot⟩
  · rw [hroot]
    exact ⟨fun _ => le_rfl, fun _ _ => rfl⟩
  · obtain ⟨hle, hstay⟩ := removeAt_paths hv.root hr
    rw [Lipp.entries, hroot]
    exact ⟨hle, fun v hmem => (hstay v hmem).2⟩

variable {order : List ℕ}

def Lipp.Keys (t : Lipp fp P) (order : List ℕ) : Prop := order.Perm (t.entries.map Prod.fst)

theorem Lipp.Keys.stored (h : t.Keys order) (hmem : key ∈ order) : t.Stored key := by
  obtain ⟨v, hv, rfl⟩ := List.mem_map.mp (h.mem_iff.mp hmem)
  exact ⟨v.2, hv⟩

theorem Lipp.Keys.length (h : t.Keys order) : order.length = t.entries.length := by
  rw [List.Perm.length_eq h, List.length_map]

theorem Lipp.Keys.remove (h : t.Keys (key :: order)) (hv : t.Valid)
    (hdepth : t.root.toItem.pathSize key ≤ 128) (hlast : ¬ t.LastInRoot key) :
    ∃ t', t.remove key = .ok (true, t') ∧ t'.Valid ∧ t'.Keys order := by
  obtain ⟨v, hreach⟩ := (stored_iff_reach hv).mp (h.stored List.mem_cons_self)
  obtain ⟨t', hremove, hv', hperm⟩ := remove_of_data hv hdepth hreach hlast
  exact ⟨t', hremove, hv', ((h.trans (hperm.map Prod.fst)).cons_inv)⟩

structure Lipp.DrainFits (t : Lipp fp P) (order : List ℕ) : Prop where
  depth : ∀ key ∈ order, t.root.toItem.pathSize key ≤ 128
  last : ∀ key, order.getLast? = some key → t.root.toItem.pathSize key ≠ 1

theorem drainFits_cons_iff (h : t.Keys (key :: order)) (hv : t.Valid)
    (hremove : t.remove key = .ok (ok, t')) (h' : t'.Keys order) :
    t.DrainFits (key :: order) ↔
      (t.root.toItem.pathSize key ≤ 128 ∧ ¬ t.LastInRoot key) ∧ t'.DrainFits order := by
  have hsame : ∀ k ∈ order, t'.root.toItem.pathSize k = t.root.toItem.pathSize k := by
    intro k hk
    obtain ⟨v, hmem⟩ := h'.stored hk
    exact (remove_paths hv hremove).2 (k, v) hmem
  have hlength := h.length
  rw [List.length_cons] at hlength
  cases order with
  | nil =>
    constructor
    · intro hfits
      exact ⟨⟨hfits.depth key List.mem_cons_self, fun hlast => hfits.last key rfl hlast.1⟩,
        nofun, nofun⟩
    · rintro ⟨⟨hdepth, hlast⟩, -⟩
      refine ⟨fun k hk => ?_, fun k hk hone => ?_⟩
      · rwa [List.mem_singleton.mp hk]
      · obtain rfl := Option.some.inj hk
        exact hlast ⟨hone, hlength.symm⟩
  | cons k rest =>
    have hnot : ¬ t.LastInRoot key := fun hlast => by
      rw [hlast.2, List.length_cons] at hlength
      omega
    constructor
    · intro hfits
      refine ⟨⟨hfits.depth key List.mem_cons_self, hnot⟩, fun l hl => ?_, fun l hl => ?_⟩
      · rw [hsame l hl]
        exact hfits.depth l (List.mem_cons_of_mem _ hl)
      · rw [hsame l (List.mem_of_getLast? hl)]
        exact hfits.last l (by rwa [List.getLast?_cons_cons])
    · rintro ⟨⟨hdepth, -⟩, hfits⟩
      refine ⟨List.forall_mem_cons.mpr ⟨hdepth, fun l hl => ?_⟩, fun l hl => ?_⟩
      · rw [← hsame l hl]
        exact hfits.depth l hl
      · rw [List.getLast?_cons_cons] at hl
        rw [← hsame l (List.mem_of_getLast? hl)]
        exact hfits.last l hl

theorem Lipp.DrainFits.run (hfits : t.DrainFits order) (h : t.Keys order) (hv : t.Valid) :
    ∃ t', run Lipp.remove t order = .ok (List.replicate order.length true, t') ∧ t'.Valid ∧
      t'.entries = [] ∧ ∀ k, t'.root.toItem.pathSize k ≤ t.root.toItem.pathSize k := by
  induction order generalizing t with
  | nil => exact ⟨t, rfl, hv, List.map_eq_nil_iff.mp h.nil_eq.symm, fun _ => le_rfl⟩
  | cons key order ih =>
    have hdepth := hfits.depth key List.mem_cons_self
    have hlast : ¬ t.LastInRoot key := by
      rintro ⟨hone, hlength⟩
      have horder := h.length
      rw [hlength, List.length_cons] at horder
      obtain rfl := List.eq_nil_of_length_eq_zero (show order.length = 0 by omega)
      exact hfits.last key rfl hone
    obtain ⟨t₁, hremove, hv₁, hkeys⟩ := h.remove hv hdepth hlast
    have hfits₁ := ((drainFits_cons_iff h hv hremove hkeys).mp hfits).2
    obtain ⟨t', hrun, hv', hnil, hle⟩ := ih hfits₁ hkeys hv₁
    refine ⟨t', ?_, hv', hnil, fun k => (hle k).trans ((remove_paths hv hremove).1 k)⟩
    rw [run_cons hremove, hrun]
    rfl

theorem drainFits_of_run (h : t.Keys order) (hv : t.Valid) {rs : List Bool}
    (hrun : run Lipp.remove t order = .ok (rs, t')) : t.DrainFits order := by
  induction order generalizing t rs with
  | nil => exact ⟨nofun, nofun⟩
  | cons key order ih =>
    obtain ⟨⟨r, t₁⟩, hremove, hrest⟩ := bind_eq_ok.mp hrun
    obtain ⟨⟨rs', t₂⟩, hrun', hret⟩ := bind_eq_ok.mp hrest
    cases hret
    obtain ⟨v, hreach⟩ := (stored_iff_reach hv).mp (h.stored List.mem_cons_self)
    have hdepth : t.root.toItem.pathSize key ≤ 128 := by
      by_contra hdeep
      cases (remove_deep (not_le.mp hdeep)).symm.trans hremove
    have hlast : ¬ t.LastInRoot key := fun hlast => by
      cases (remove_lastInRoot hv hreach hlast).symm.trans hremove
    obtain ⟨t₁', hremove', hv', hkeys⟩ := h.remove hv hdepth hlast
    obtain ⟨-, rfl⟩ := Prod.ext_iff.mp (Except.ok.inj (hremove'.symm.trans hremove))
    exact (drainFits_cons_iff h hv hremove' hkeys).mpr ⟨⟨hdepth, hlast⟩, ih hkeys hv' hrun'⟩

end Remove

section Drained

variable {t : Lipp fp P} {order : List ℕ}

/-- All removals in this order return true, and the tree they leave finds no key and takes every
insert. -/
def Lipp.Drained (t : Lipp fp P) (order : List ℕ) : Prop :=
  ∃ t', run Lipp.remove t order = .ok (List.replicate order.length true, t') ∧
    (∀ key, ∃ t'', t'.at key = .ok (none, t'')) ∧
    ∀ key value, ∃ t'', t'.insert key value = .ok t''

theorem reach_of_entries_nil (hv : t.Valid) (hnil : t.entries = []) (key : ℕ) :
    t.root.toItem.reach key = .empty := by
  rcases reach_cases t.root.toItem key with hempty | ⟨k, v, hdata⟩
  · exact hempty
  · have hmem := mem_entries_of_reach hv.root hdata
    change (k, v) ∈ t.entries at hmem
    rw [hnil] at hmem
    cases hmem

/-- A reachable tree can be drained exactly when no key lies too deep and the last key to be
removed does not lie in the root. -/
theorem drained_iff (ht : Reachable t) (horder : t.Keys order) :
    t.Drained order ↔ t.DrainFits order := by
  constructor
  · rintro ⟨t', hrun, -, -⟩
    exact drainFits_of_run horder ht.valid hrun
  · intro hfits
    obtain ⟨t', hrun, hv, hnil, hle⟩ := hfits.run horder ht.valid
    have hempty := reach_of_entries_nil hv hnil
    refine ⟨t', hrun, fun key => ⟨t'.enter.1, ?_⟩, fun key value => ?_⟩
    · rw [at_eq, hempty]
      rfl
    · have hdepth : t'.root.toItem.pathSize key ≤ 128 := by
        by_contra hlong
        obtain ⟨v, hmem, hdeep⟩ := Item.Deep.exists_mem ht.valid.root ht.deep (by omega)
          (show 128 < 0 + t.root.toItem.pathSize key by have := hle key; omega)
        have hstored : v.1 ∈ order := horder.mem_iff.mpr (List.mem_map_of_mem hmem)
        have := hfits.depth v.1 hstored
        omega
      obtain ⟨t'', hok, -⟩ := insert_spec hv (insertFits_of_entries_nil hv hnil hdepth)
      exact ⟨t'', hok⟩

theorem load_insert_eq : (Lipp.load [(0, 10), (2 ^ 60, 50)] >>= fun t : Lipp .x86 ℕ =>
    t.insert (2 ^ 60 - 1) 20 >>= fun t' =>
      .ok (t'.entries, [0, 2 ^ 60 - 1, 2 ^ 60].map t'.root.toItem.pathSize)) =
      .ok ([(0, 10), (2 ^ 60 - 1, 20), (2 ^ 60, 50)], [1, 2, 2]) := by
  decide +kernel

theorem drained_three : ∃ t : Lipp .x86 ℕ, Reachable t ∧ t.Keys [0, 2 ^ 60 - 1, 2 ^ 60] ∧
    t.Drained [0, 2 ^ 60 - 1, 2 ^ 60] := by
  have hvs : Ascending [(0, 10), (2 ^ 60, 50)] := List.pairwise_pair.mpr (by norm_num)
  obtain ⟨t, hload, hnext⟩ := bind_eq_ok.mp load_insert_eq
  obtain ⟨t', hinsert, hret⟩ := bind_eq_ok.mp hnext
  obtain ⟨hentries, hpaths⟩ := Prod.mk.inj (Except.ok.inj hret)
  simp only [List.map_cons, List.map_nil, List.cons.injEq, and_true] at hpaths
  obtain ⟨h0, h1, h2⟩ := hpaths
  have hreach : Reachable t' := .call (.load hvs hload)
    (show t.call (.put (2 ^ 60 - 1) 20) = .ok ({ ok := true }, t') by
      rw [Lipp.call, hinsert]
      rfl)
  have hkeys : t'.Keys [0, 2 ^ 60 - 1, 2 ^ 60] := by
    rw [Lipp.Keys, hentries]
    decide
  refine ⟨t', hreach, hkeys, (drained_iff hreach hkeys).mpr ⟨?_, fun key hlast => ?_⟩⟩
  · simp only [List.forall_mem_cons, h0, h1, h2]
    simp
  · obtain rfl : 2 ^ 60 = key := by simpa using hlast
    rw [h2]
    decide

theorem not_drained_one : ∃ t : Lipp .x86 ℕ, Reachable t ∧ t.entries ≠ [] ∧ t.Keys [7] ∧
    t.remove 7 = .error .uninitParent ∧ ¬ t.Drained [7] := by
  have hvs : Ascending [(7, 70)] := List.pairwise_singleton _ _
  have heval : (Lipp.load [(7, 70)]).map (fun t : Lipp .x86 ℕ => t.root.toItem.pathSize 7) =
      .ok 1 := by decide +kernel
  obtain ⟨t, hload, hv, hentries, hpath⟩ := exists_loaded hvs (by simp) heval
  have hreach := (mem_entries_iff_reach hv.root).mp (hentries ▸ List.mem_cons_self : _ ∈ t.entries)
  have hremove := remove_lastInRoot hv hreach ⟨hpath, by rw [hentries]; rfl⟩
  refine ⟨t, .load hvs hload, by simp [hentries], ?_, hremove, ?_⟩
  · rw [Lipp.Keys, hentries]
    exact .refl _
  · rintro ⟨t', hrun, -, -⟩
    obtain ⟨x, hx, -⟩ := bind_eq_ok.mp hrun
    cases hremove.symm.trans hx

end Drained

end LearnedIndexFramework.Lippol
