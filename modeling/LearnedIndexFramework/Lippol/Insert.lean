import LearnedIndexFramework.Lippol.Build
import LearnedIndexFramework.Lippol.Scan

/-! Inserting into a valid tree: the descent, and the rebuild of the first node that needs it. -/

namespace LearnedIndexFramework.Lippol

open Lib Function

variable {fp : Precision} {P : Type}

section Slot

variable {h : Header fp} {items : ℕ → Item fp P}

theorem entries_around (hv : (Item.child h items).Valid) (key : ℕ) :
    ∃ before after,
      (Item.child h items).entries =
        before ++ ((items (h.predictPos key)).entries ++ after) ∧
      ∀ s, slotEntries h.numItems (update items (h.predictPos key) s) =
        before ++ (s.entries ++ after) := by
  obtain ⟨before, after, hsplit⟩ :=
    slotEntries_update (predictPos_lt hv.1.numItems_pos key) items
  refine ⟨before, after, ?_, hsplit⟩
  rw [← hsplit, update_eq_self, entries_child]

theorem valid_update (hv : (Item.child h items).Valid) {key : ℕ} {s : Item fp P} {size : ℤ}
    (numInserts numInsertToData : ℤ) (hs : s.Valid)
    (hroute : ∀ v ∈ s.entries, h.predictPos v.1 = h.predictPos key)
    (hsize : size = h.size - (items (h.predictPos key)).entries.length + s.entries.length) :
    (Item.child { h with size, numInserts, numInsertToData }
      (update items (h.predictPos key) s)).Valid := by
  obtain ⟨before, after, hold, hnew⟩ := entries_around hv key
  have hcount := hv.size_eq
  rw [hold] at hcount
  refine ⟨⟨hv.1.numItems_pos, hv.1.slope_nonneg, hv.1.two, ?_, fun i hi v hmem => ?_⟩,
    fun i hi => ?_⟩
  · change size = (slotEntries h.numItems _).length
    rw [hnew]
    simp only [List.length_append, Nat.cast_add] at hcount ⊢
    omega
  · by_cases hpos : i = h.predictPos key
    · subst hpos
      rw [update_self] at hmem
      exact hroute v hmem
    · rw [update_of_ne hpos] at hmem
      exact hv.1.routed i hi v hmem
  · by_cases hpos : i = h.predictPos key
    · rw [hpos, update_self]
      exact hs
    · rw [update_of_ne hpos]
      exact hv.2 i hi

theorem valid_update_same (hv : (Item.child h items).Valid) {key : ℕ} {s : Item fp P} (hs : s.Valid)
    (hroute : ∀ v ∈ s.entries, h.predictPos v.1 = h.predictPos key)
    (hlength : s.entries.length = (items (h.predictPos key)).entries.length) :
    (Item.child h (update items (h.predictPos key) s)).Valid :=
  @valid_update fp P h items hv key s h.size h.numInserts h.numInsertToData hs hroute
    (by rw [hlength]; omega)

theorem slot_length_le (hv : (Item.child h items).Valid) (key : ℕ) :
    (items (h.predictPos key)).entries.length ≤ (Item.child h items).entries.length := by
  obtain ⟨before, after, hold, -⟩ := entries_around hv key
  simp only [hold, List.length_append]
  omega

theorem slot_routed (hv : (Item.child h items).Valid) {key : ℕ} {v : ℕ × P}
    (hmem : v ∈ (items (h.predictPos key)).entries) : h.predictPos v.1 = h.predictPos key :=
  hv.1.routed _ (predictPos_lt hv.1.numItems_pos key) v hmem

end Slot

def Item.insertToData (key : ℕ) (item : Item fp P) : ℤ := if (item.reach key).isData then 1 else 0

section InsertAt

variable {key depth : ℕ} {value : P} {pendingTwo : List (Node fp P)}

theorem bump_eq_ok {h h' : Header fp} {d : ℤ} : h.bump d = .ok h' ↔ h.size + 1 < 2 ^ 31 ∧ h' = {
    h with
    numInsertToData := wrapInt (h.numInsertToData + d)
    numInserts := wrapInt (h.numInserts + 1)
    size := h.size + 1 } := by
  unfold Header.bump
  split
  · next hlt => exact ⟨fun heq => ⟨hlt, (Except.ok.inj heq).symm⟩, fun hr => by rw [hr.2]⟩
  · next hge => exact ⟨nofun, fun hr => absurd hr.1 hge⟩

theorem insertAt_child {h : Header fp} {items : ℕ → Item fp P}
    {r : Item fp P × ℤ × ℕ × List (Node fp P)} :
    (Item.child h items).insertAt key value depth pendingTwo = .ok r ↔
      depth < 128 ∧ ∃ s h', ∃ n : ℕ,
        (items (h.predictPos key)).insertAt key value (depth + 1) pendingTwo =
          .ok (s, r.2.1, n, r.2.2.2) ∧
        h.bump r.2.1 = .ok h' ∧ r.1 = .child h' (update items (h.predictPos key) s) ∧
        r.2.2.1 = n + 1 := by
  rw [Item.insertAt]
  by_cases hdepth : depth < 128
  · have hassert : rtAssert (depth < 128) "path_size < MAX_DEPTH" = .ok () := if_pos hdepth
    rw [hassert]
    change (Item.insertAt key value (items (h.predictPos key)) (depth + 1) pendingTwo >>= _) = _ ↔ _
    simp only [bind_eq_ok, hdepth, true_and, Prod.exists]
    constructor
    · rintro ⟨s, d, n, pool, hs, h', hbump, heq⟩
      obtain rfl := Except.ok.inj heq
      exact ⟨s, h', n, hs, hbump, rfl, rfl⟩
    · rintro ⟨s, h', n, hs, hbump, hitem, hn⟩
      refine ⟨s, r.2.1, n, r.2.2.2, hs, h', hbump, ?_⟩
      rw [← hitem, ← hn]
      rfl
  · have hassert : rtAssert (depth < 128) "path_size < MAX_DEPTH" =
        .error (.rtAssert "path_size < MAX_DEPTH") := if_neg hdepth
    rw [hassert]
    simp [hdepth, bind, Except.bind]

theorem insertAt_valid {item : Item fp P} {r : Item fp P × ℤ × ℕ × List (Node fp P)}
    (hv : item.Valid) (hpool : CleanPool pendingTwo)
    (hr : item.insertAt key value depth pendingTwo = .ok r) :
    CleanPool r.2.2.2 ∧ r.1.Valid ∧ r.1.entries.Perm ((key, value) :: item.entries) := by
  induction item generalizing depth r with
  | empty =>
    cases hr
    exact ⟨hpool, trivial, .refl _⟩
  | data k v =>
    obtain ⟨built, hbuild, hret⟩ := bind_eq_ok.mp hr
    cases hret
    obtain ⟨-, hbuilt⟩ := buildTreeTwo_built hpool hbuild
    refine ⟨hbuilt.pool, hbuilt.valid, ?_⟩
    dsimp only
    rw [hbuilt.entries, twoEntries]
    split
    · exact .swap _ _ _
    · exact .refl _
  | child h items ih =>
    obtain ⟨-, s, h', n, hs, hbump, hitem, -⟩ := insertAt_child.mp hr
    have hlt := predictPos_lt hv.1.numItems_pos key
    obtain ⟨hpool', hvalid, hperm⟩ := ih _ (hv.2 _ hlt) hs
    obtain ⟨-, rfl⟩ := bump_eq_ok.mp hbump
    rw [hitem]
    refine ⟨hpool', valid_update hv _ _ hvalid (fun w hw => ?_) ?_, ?_⟩
    · rcases List.mem_cons.mp (hperm.mem_iff.mp hw) with rfl | hold
      · rfl
      · exact slot_routed hv hold
    · dsimp only at hperm
      rw [hperm.length_eq, List.length_cons]
      omega
    · obtain ⟨before, after, hold, hnew⟩ := entries_around hv key
      change (slotEntries h.numItems _).Perm _
      rw [hnew, hold]
      exact ((hperm.append_right after).append_left before).trans List.perm_middle

theorem insertAt_returns (value : P) {item : Item fp P} (hv : item.Valid)
    (hpool : CleanPool pendingTwo) (hslots : ∀ k v, item.reach key = .data k v → TwoSlots fp key k)
    (hdepth : depth + item.pathSize key ≤ 128) (hmax : item.entries.length + 1 < 2 ^ 31) :
    ∃ r, item.insertAt key value depth pendingTwo = .ok r := by
  induction item generalizing depth with
  | empty => exact ⟨_, rfl⟩
  | data k v =>
    obtain ⟨built, hbuild⟩ := buildTreeTwo_returns (hslots k v rfl) hpool
    exact ⟨_, bind_eq_ok.mpr ⟨built, hbuild, rfl⟩⟩
  | child h items ih =>
    have hlt := predictPos_lt hv.1.numItems_pos key
    have hle := slot_length_le hv key
    rw [Item.pathSize] at hdepth
    have hdepth' : depth + 1 + (items (h.predictPos key)).pathSize key ≤ 128 := by omega
    obtain ⟨⟨s, d, n, pool⟩, hs⟩ := ih _ (hv.2 _ hlt) hslots hdepth' (by omega)
    have hsize : h.size + 1 < 2 ^ 31 := by rw [hv.size_eq]; omega
    obtain ⟨h', hbump⟩ : ∃ h', h.bump d = .ok h' := ⟨_, bump_eq_ok.mpr ⟨hsize, rfl⟩⟩
    exact ⟨(.child h' (update items (h.predictPos key) s), d, n + 1, pool),
      insertAt_child.mpr ⟨by omega, s, h', n, hs, hbump, rfl, rfl⟩⟩

theorem insertAt_ok {item : Item fp P} {r : Item fp P × ℤ × ℕ × List (Node fp P)}
    (hpool : CleanPool pendingTwo)
    (hr : item.insertAt key value depth pendingTwo = .ok r) (hdepth : depth ≤ 128) :
    (∀ k v, item.reach key = .data k v → TwoSlots fp key k) ∧ depth + item.pathSize key ≤ 128 ∧
      r.2.1 = item.insertToData key ∧ r.2.2.1 = item.pathSize key := by
  induction item generalizing depth r with
  | empty =>
    obtain rfl := Except.ok.inj hr
    exact ⟨nofun, hdepth, rfl, rfl⟩
  | data k v =>
    obtain ⟨built, hbuild, hret⟩ := bind_eq_ok.mp hr
    obtain rfl := Except.ok.inj hret
    refine ⟨fun k' v' hdata => ?_, hdepth, rfl, rfl⟩
    obtain ⟨rfl, rfl⟩ := Item.data.inj hdata
    exact (buildTreeTwo_built hpool hbuild).1
  | child h items ih =>
    obtain ⟨hlt, s, h', n, hs, -, -, hn⟩ := insertAt_child.mp hr
    obtain ⟨hslots, hpath, hdata, hlen⟩ := ih _ hs (by omega)
    refine ⟨hslots, ?_, hdata, ?_⟩
    · rw [Item.pathSize]
      omega
    · rw [hn, Item.pathSize, ← hlen]

end InsertAt

section Rebuild

variable {key : ℕ}

/-- Before an insert: the counters it will look for a rebuild at do not overflow, and a node that
it rebuilds is not too large. -/
def Item.RebuildFits (key : ℕ) (d : ℤ) : Item fp P → Prop
  | .child h items => ∃ h' b, h.bump d = .ok h' ∧ h'.needRebuild = .ok b ∧
      if b then h'.size < 2 ^ 30 else (items (h.predictPos key)).RebuildFits key d
  | _ => True

def PathFits (key : ℕ) : ℕ → Item fp P → Prop
  | n + 1, .child h items => ∃ b, h.needRebuild = .ok b ∧
      if b then h.size < 2 ^ 30 else PathFits key n (items (h.predictPos key))
  | _, _ => True

theorem predictPos_of_bump {h h' : Header fp} {d : ℤ} (hb : h.bump d = .ok h') (key : ℕ) :
    h'.predictPos key = h.predictPos key := by
  obtain ⟨-, rfl⟩ := bump_eq_ok.mp hb
  rfl

theorem rebuildFits_iff {item : Item fp P} {value : P} {depth : ℕ} {pendingTwo : List (Node fp P)}
    {r : Item fp P × ℤ × ℕ × List (Node fp P)}
    (hr : item.insertAt key value depth pendingTwo = .ok r) :
    item.RebuildFits key r.2.1 ↔ PathFits key r.2.2.1 r.1 := by
  induction item generalizing depth r with
  | empty =>
    obtain rfl := Except.ok.inj hr
    exact Iff.rfl
  | data k v =>
    obtain ⟨built, hbuild, hret⟩ := bind_eq_ok.mp hr
    obtain rfl := Except.ok.inj hret
    exact Iff.rfl
  | child h items ih =>
    obtain ⟨-, s, h', n, hs, hbump, hitem, hn⟩ := insertAt_child.mp hr
    have hrest := ih _ hs
    rw [hitem, hn, Item.RebuildFits, PathFits, predictPos_of_bump hbump, update_self, ← hrest]
    constructor
    · rintro ⟨h₁, b, hb, hneed⟩
      obtain rfl := Except.ok.inj (hbump.symm.trans hb)
      exact ⟨b, hneed⟩
    · exact fun ⟨b, hneed⟩ => ⟨h', b, hbump, hneed⟩

theorem needRebuild_size {h : Header fp} (hneed : h.needRebuild = .ok true) : 64 ≤ h.size := by
  unfold Header.needRebuild at hneed
  split at hneed
  · next hcond => exact hcond.2.2
  · simp at hneed

theorem rebuildFits_of_small {item : Item fp P} (hv : item.Valid) (d : ℤ)
    (hsmall : item.entries.length + 1 < 64) : item.RebuildFits key d := by
  induction item with
  | empty => trivial
  | data => trivial
  | child h items ih =>
    have hsize := hv.size_eq
    have hle := slot_length_le hv key
    have hlt := predictPos_lt hv.1.numItems_pos key
    refine ⟨_, false, bump_eq_ok.mpr ⟨by omega, rfl⟩, if_neg ?_, ih _ (hv.2 _ hlt) (by omega)⟩
    rintro ⟨-, -, h64⟩
    dsimp only at h64
    omega

/-- Before an insert: the entries of a node that it rebuilds can be separated, the new one
included. -/
def Item.RebuildSeparates (key : ℕ) (value : P) (d : ℤ) : Item fp P → Prop
  | .child h items => ∀ h', h.bump d = .ok h' →
      if h'.needRebuild = .ok true then
        ∀ vs, Ascending vs → vs.Perm ((key, value) :: (Item.child h items).entries) →
          Separable fp vs
      else (items (h.predictPos key)).RebuildSeparates key value d
  | _ => True

def PathSeparates (key : ℕ) : ℕ → Item fp P → Prop
  | n + 1, .child h items =>
      if h.needRebuild = .ok true then Separable fp (Item.child h items).entries
      else PathSeparates key n (items (h.predictPos key))
  | _, _ => True

theorem rebuildSeparates_of_small {item : Item fp P} (hv : item.Valid) (value : P) (d : ℤ)
    (hsmall : item.entries.length + 1 < 64) : item.RebuildSeparates key value d := by
  induction item with
  | empty => trivial
  | data => trivial
  | child h items ih =>
    have hsize := hv.size_eq
    have hle := slot_length_le hv key
    have hlt := predictPos_lt hv.1.numItems_pos key
    intro h' hbump
    obtain ⟨-, rfl⟩ := bump_eq_ok.mp hbump
    rw [if_neg]
    · exact ih _ (hv.2 _ hlt) (by omega)
    · intro hneed
      have h64 := needRebuild_size hneed
      dsimp only at h64
      omega

theorem rebuildSeparates_exact {item : Item .exact P} (hv : item.Valid) (value : P) {d : ℤ}
    (hfits : item.RebuildFits key d) : item.RebuildSeparates key value d := by
  induction item with
  | empty => trivial
  | data => trivial
  | child h items ih =>
    obtain ⟨h', b, hbump, hneed, hcase⟩ := hfits
    intro h₁ hbump₁
    obtain rfl := Except.ok.inj (hbump.symm.trans hbump₁)
    rw [hneed]
    cases b with
    | true =>
      rw [if_pos rfl] at hcase ⊢
      intro vs hvs hperm
      have h64 := needRebuild_size hneed
      have hlength := hperm.length_eq
      rw [List.length_cons] at hlength
      have hsize := hv.size_eq
      obtain ⟨-, rfl⟩ := bump_eq_ok.mp hbump
      dsimp only at hcase h64
      exact separable_exact hvs (by omega) (by omega)
    | false =>
      rw [if_neg nofun] at hcase ⊢
      exact ih _ (hv.2 _ (predictPos_lt hv.1.numItems_pos key)) hcase

theorem rebuildSeparates_iff {item : Item fp P} {value : P} {depth : ℕ}
    {pendingTwo : List (Node fp P)} {r : Item fp P × ℤ × ℕ × List (Node fp P)}
    (hv : item.Valid) (hpool : CleanPool pendingTwo)
    (hr : item.insertAt key value depth pendingTwo = .ok r) :
    item.RebuildSeparates key value r.2.1 ↔ PathSeparates key r.2.2.1 r.1 := by
  induction item generalizing depth r with
  | empty =>
    obtain rfl := Except.ok.inj hr
    exact Iff.rfl
  | data k v =>
    obtain ⟨built, hbuild, hret⟩ := bind_eq_ok.mp hr
    obtain rfl := Except.ok.inj hret
    exact Iff.rfl
  | child h items ih =>
    obtain ⟨-, hvalid, hperm⟩ := insertAt_valid hv hpool hr
    obtain ⟨-, s, h', n, hs, hbump, hitem, hn⟩ := insertAt_child.mp hr
    have hrest := ih _ (hv.2 _ (predictPos_lt hv.1.numItems_pos key)) hs
    rw [hitem] at hvalid hperm
    rw [hitem, hn, Item.RebuildSeparates, PathSeparates, predictPos_of_bump hbump, update_self,
      ← hrest]
    constructor
    · intro hsep
      have hcase := hsep h' hbump
      split at hcase
      · next hneed =>
        rw [if_pos hneed]
        exact hcase _ hvalid.ascending hperm
      · next hneed =>
        rw [if_neg hneed]
        exact hcase
    · intro hsep h₁ hbump₁
      obtain rfl := Except.ok.inj (hbump.symm.trans hbump₁)
      split at hsep
      · next hneed =>
        rw [if_pos hneed]
        intro vs hvs hperm'
        obtain rfl := hvs.eq_of_mem_iff hvalid.ascending fun v =>
          (hperm'.trans hperm.symm).mem_iff
        exact hsep
      · next hneed =>
        rw [if_neg hneed]
        exact hsep

section Node

variable {h : Header fp} {items : ℕ → Item fp P} {n : ℕ} {pendingTwo : List (Node fp P)}

theorem rebuildPath_of_need (hneed : h.needRebuild = .ok true) :
    rebuildPath key (n + 1) (.child h items) pendingTwo =
      scanAndDestoryTree { header := h, items } >>= fun scanned =>
        buildTreeBulk scanned.1 pendingTwo >>= fun built =>
          .ok (built.1.toItem, scanned.2, built.2) := by
  rw [rebuildPath, hneed]
  rfl

theorem rebuildPath_of_not_need (hneed : h.needRebuild = .ok false) :
    rebuildPath key (n + 1) (.child h items) pendingTwo =
      rebuildPath key n (items (h.predictPos key)) pendingTwo >>= fun below =>
        .ok (.child h (update items (h.predictPos key) below.1), below.2.1, below.2.2) := by
  rw [rebuildPath, hneed]
  rfl

end Node

structure Rebuilt (item : Item fp P) (r : Item fp P × List (Node fp P) × List (Node fp P)) :
    Prop where
  pool : CleanPool r.2.2
  nodes : ∀ node ∈ r.2.1, Reusable node
  valid : r.1.Valid
  entries : r.1.entries = item.entries

theorem rebuildPath_rebuilt (n : ℕ) {item : Item fp P} {pendingTwo : List (Node fp P)}
    {r : Item fp P × List (Node fp P) × List (Node fp P)} (hv : item.Valid)
    (hpool : CleanPool pendingTwo) (hr : rebuildPath key n item pendingTwo = .ok r) :
    Rebuilt item r ∧ PathSeparates key n item := by
  induction n generalizing item r with
  | zero =>
    rw [rebuildPath] at hr
    · cases hr
      exact ⟨⟨hpool, fun _ hmem => absurd hmem List.not_mem_nil, hv, rfl⟩, by cases item <;> trivial⟩
    · simp
  | succ n ih =>
    cases item with
    | empty =>
      cases hr
      exact ⟨⟨hpool, fun _ hmem => absurd hmem List.not_mem_nil, hv, rfl⟩, trivial⟩
    | data k v =>
      cases hr
      exact ⟨⟨hpool, fun _ hmem => absurd hmem List.not_mem_nil, hv, rfl⟩, trivial⟩
    | child h items =>
      obtain ⟨b, hneed, -⟩ := bind_eq_ok.mp hr
      rw [PathSeparates, hneed]
      cases b with
      | true =>
        rw [rebuildPath_of_need hneed] at hr
        obtain ⟨scanned, hscan, hr⟩ := bind_eq_ok.mp hr
        obtain ⟨built, hbuild, hret⟩ := bind_eq_ok.mp hr
        cases hret
        obtain ⟨nodes, hscan', hnodes⟩ := scanAndDestoryTree_spec { header := h, items } hv
        obtain rfl := Except.ok.inj (hscan'.symm.trans hscan)
        obtain ⟨hsep, hbuilt⟩ := buildTreeBulk_built hv.ascending hpool hbuild
        rw [if_pos rfl]
        exact ⟨⟨hbuilt.pool, hnodes, hbuilt.valid, hbuilt.entries⟩, hsep⟩
      | false =>
        rw [rebuildPath_of_not_need hneed] at hr
        obtain ⟨below, hbelow, hret⟩ := bind_eq_ok.mp hr
        cases hret
        have hlt := predictPos_lt hv.1.numItems_pos key
        obtain ⟨⟨hpool', hnodes, hvalid, hentries⟩, hsep⟩ := ih (hv.2 _ hlt) hbelow
        obtain ⟨before, after, hold, hnew⟩ := entries_around hv key
        rw [if_neg nofun]
        refine ⟨⟨hpool', hnodes, ?_, ?_⟩, hsep⟩
        · exact valid_update_same hv hvalid (fun v hmem => slot_routed hv (hentries ▸ hmem))
            (by rw [hentries])
        · dsimp only
          rw [entries_child, hnew, hentries, hold]

theorem rebuildPath_returns (n : ℕ) {item : Item fp P} {pendingTwo : List (Node fp P)}
    (hv : item.Valid) (hpool : CleanPool pendingTwo) (hfits : PathFits key n item)
    (hsep : PathSeparates key n item) : ∃ r, rebuildPath key n item pendingTwo = .ok r := by
  induction n generalizing item with
  | zero => exact ⟨_, by rw [rebuildPath]; simp⟩
  | succ n ih =>
    cases item with
    | empty => exact ⟨_, rfl⟩
    | data => exact ⟨_, rfl⟩
    | child h items =>
      obtain ⟨b, hneed, hcase⟩ := hfits
      rw [PathSeparates, hneed] at hsep
      cases b with
      | true =>
        rw [if_pos rfl] at hsep
        obtain ⟨nodes, hscan, -⟩ := scanAndDestoryTree_spec { header := h, items } hv
        obtain ⟨built, hbuild⟩ := buildTreeBulk_returns hsep hv.ascending hpool
        rw [rebuildPath_of_need hneed]
        exact ⟨_, bind_eq_ok.mpr ⟨_, hscan, bind_eq_ok.mpr ⟨built, hbuild, rfl⟩⟩⟩
      | false =>
        rw [if_neg nofun] at hsep
        rw [if_neg nofun] at hcase
        obtain ⟨below, hbelow⟩ := ih (hv.2 _ (predictPos_lt hv.1.numItems_pos key)) hcase hsep
        rw [rebuildPath_of_not_need hneed]
        exact ⟨_, bind_eq_ok.mpr ⟨below, hbelow, rfl⟩⟩

theorem pathFits_of_rebuildPath (n : ℕ) {item : Item fp P} {pendingTwo : List (Node fp P)}
    {r : Item fp P × List (Node fp P) × List (Node fp P)} (hv : item.Valid)
    (hr : rebuildPath key n item pendingTwo = .ok r) : PathFits key n item := by
  induction n generalizing item r with
  | zero => cases item <;> trivial
  | succ n ih =>
    cases item with
    | empty => trivial
    | data => trivial
    | child h items =>
      obtain ⟨b, hneed, -⟩ := bind_eq_ok.mp hr
      refine ⟨b, hneed, ?_⟩
      cases b with
      | true =>
        rw [rebuildPath_of_need hneed] at hr
        rw [if_pos rfl]
        by_contra hge
        have hsize := hv.size_eq
        obtain ⟨nodes, hscan, -⟩ := scanAndDestoryTree_spec { header := h, items } hv
        have hbig : 2 ^ 30 ≤ (Item.child h items).entries.length := by omega
        obtain ⟨scanned, hscan', hr⟩ := bind_eq_ok.mp hr
        obtain rfl := Except.ok.inj (hscan.symm.trans hscan')
        obtain ⟨built, hbuild, -⟩ := bind_eq_ok.mp hr
        cases (buildTreeBulk_of_ge hbig).symm.trans hbuild
      | false =>
        rw [rebuildPath_of_not_need hneed] at hr
        rw [if_neg (by simp)]
        obtain ⟨below, hbelow, -⟩ := bind_eq_ok.mp hr
        exact ih (hv.2 _ (predictPos_lt hv.1.numItems_pos key)) hbelow

end Rebuild

end LearnedIndexFramework.Lippol
