import LearnedIndexFramework.Lib.Fallible
import LearnedIndexFramework.Lib.Overlay
import LearnedIndexFramework.Lippol.Entries

/-! Flattening a subtree before it is rebuilt.  The offsets come from the `size` counters; when
these count the entries, the collected array is the in-order traversal. -/

namespace LearnedIndexFramework.Lippol

open Lib Function

variable {fp : Precision} {P : Type}

def Reusable (node : Node fp P) : Prop :=
  node.header.isTwo = true → node.header.buildSize = 2 ∧ node.header.numItems = 8 ∧
    node.header.fixed = false

def Scans (esize : ℤ) (item : Item fp P) : Prop :=
  ∀ start out, 0 ≤ start → start + item.entries.length ≤ esize →
    ∃ nodes, item.scan esize start out = .ok (overlay out start item.entries, nodes) ∧
      ∀ node ∈ nodes, Reusable node

def scanSegment (esize : ℤ) (items : ℕ → Item fp P) (segment : ℤ × ℕ)
    (state : (ℤ → Option (ℕ × P)) × List (Node fp P)) :
    Except Fault ((ℤ → Option (ℕ × P)) × List (Node fp P)) := do
  let (out, nodes) ← (items segment.2).scan esize segment.1 state.1
  return (out, state.2 ++ nodes)

section Slots

variable {esize : ℤ} {items : ℕ → Item fp P}

theorem Item.Valid.size_eq {h : Header fp} {items : ℕ → Item fp P} (hv : (Item.child h items).Valid) :
    h.size = (Item.child h items).entries.length := hv.1.size_eq

theorem scanSlots_spec (is : List ℕ) (hvalid : ∀ i ∈ is, (items i).Valid)
    (hscan : ∀ i ∈ is, ∀ h items', items i = .child h items' → Scans esize (items i))
    (start : ℤ) (out : ℤ → Option (ℕ × P)) (h0 : 0 ≤ start)
    (hend : start + (is.flatMap fun i => (items i).entries).length ≤ esize) :
    ∃ out' segments,
      scanSlots esize items is start out =
        .ok (start + (is.flatMap fun i => (items i).entries).length, out', segments) ∧
      ∀ nodes, (∀ node ∈ nodes, Reusable node) →
        ∃ nodes', segments.foldrM (scanSegment esize items) (out', nodes) =
            .ok (overlay out start (is.flatMap fun i => (items i).entries), nodes') ∧
          ∀ node ∈ nodes', Reusable node := by
  induction is generalizing start out with
  | nil => exact ⟨out, [], by simp [scanSlots], fun nodes hn => ⟨nodes, by simp; rfl, hn⟩⟩
  | cons i is ih =>
    have hrest := ih (fun j hj => hvalid j (by simp [hj])) fun j hj => hscan j (by simp [hj])
    have hvi := hvalid i (by simp)
    simp only [List.flatMap_cons, List.length_append, Nat.cast_add] at hend ⊢
    unfold scanSlots
    cases hitem : items i with
    | empty =>
      simp only [hitem, entries_empty, List.length_nil, Nat.cast_zero, zero_add, List.nil_append]
        at hend ⊢
      exact hrest start out h0 hend
    | data key value =>
      simp only [hitem, entries_data, List.length_singleton, Nat.cast_one] at hend ⊢
      have hwrite : writeEntry esize out start (key, value) =
          .ok (update out start (some (key, value))) := if_pos ⟨h0, by omega⟩
      obtain ⟨out', segments, hslots, hsegs⟩ :=
        hrest (start + 1) (update out start (some (key, value))) (by omega) (by omega)
      refine ⟨out', segments, ?_, fun nodes hn => ?_⟩
      · rw [hwrite, ← add_assoc]
        exact hslots
      · rw [overlay_append_left, overlay_singleton]
        exact hsegs nodes hn
    | child h items' =>
      rw [hitem] at hvi hend
      have hsize := hvi.size_eq
      obtain ⟨out', segments, hslots, hsegs⟩ :=
        hrest (start + h.size) out (by omega) (by omega)
      refine ⟨out', (start, i) :: segments, ?_, fun nodes hn => ?_⟩
      · simp only [hslots, bind, Except.bind]
        rw [hsize, add_assoc]
        rfl
      · obtain ⟨nodes1, hfold, hn1⟩ := hsegs nodes hn
        have hchildScan := hscan i (by simp) h items' hitem
        rw [hitem] at hchildScan
        obtain ⟨nodes2, hchild, hn2⟩ := hchildScan start _ h0 (by omega)
        refine ⟨nodes1 ++ nodes2, ?_, fun node hnode => ?_⟩
        · rw [List.foldrM_cons, hfold, overlay_append]
          change scanSegment esize items (start, i) _ = _
          rw [scanSegment, hitem, ← hsize, hchild]
          rfl
        · exact (List.mem_append.mp hnode).elim (hn1 node) (hn2 node)

end Slots

theorem assertTwo_eq_ok {h : Header fp}
    (hshape : h.isTwo = true → h.buildSize = 2 ∧ h.numItems = 8 ∧ h.fixed = false) :
    assertTwo h = .ok () := by
  unfold assertTwo
  split
  · next htwo =>
    obtain ⟨h1, h2, -⟩ := hshape htwo
    simp [rtAssert, h1, h2, bind, Except.bind]
  · rfl

theorem Item.Valid.scans {esize : ℤ} {h : Header fp} {items : ℕ → Item fp P}
    (hv : (Item.child h items).Valid) : Scans esize (Item.child h items) := by
  generalize hitem : Item.child h items = item at hv
  induction item generalizing h items with
  | empty => simp at hitem
  | data => simp at hitem
  | child h' items' ih =>
    obtain ⟨rfl, rfl⟩ := Item.child.inj hitem
    obtain ⟨hok, hslots⟩ := hv
    intro start out h0 hend
    rw [entries_child] at hend ⊢
    have hchildren : ∀ i ∈ List.range h.numItems, ∀ h' items', items i = .child h' items' →
        Scans esize (items i) := fun i hi h' items' heq =>
      ih i heq.symm (hslots i (List.mem_range.mp hi))
    obtain ⟨out', segments, hscan, hsegs⟩ := scanSlots_spec (List.range h.numItems)
      (fun i hi => hslots i (List.mem_range.mp hi)) hchildren start out h0 hend
    have hassert : rtAssert (start + h.size = start + (slotEntries h.numItems items).length)
        "false" = .ok () := if_pos (by rw [hok.size_eq])
    have hreuse : Reusable (P := P) { header := if h.isTwo then
        { h with size := 2, numInserts := 0, numInsertToData := 0 } else h, items } := by
      intro htwo
      split at htwo
      · next hh => simpa [hh] using hok.two hh
      · next hh => exact absurd htwo hh
    obtain ⟨nodes, hfold, hnodes⟩ := hsegs [_] (by simpa using hreuse)
    refine ⟨nodes, ?_, hnodes⟩
    have htwo := assertTwo_eq_ok hok.two
    rw [Item.scan, hscan]
    change (do rtAssert (start + h.size = start + (slotEntries h.numItems items).length) "false"
               assertTwo h
               segments.foldrM (scanSegment esize items) (out', [_])) = _
    rw [hassert]
    change (do assertTwo h; _) = _
    rw [htwo]
    exact hfold

theorem readEntries_overlay (out : ℤ → Option (ℕ × P)) (xs : List (ℕ × P)) {n : ℕ}
    (hn : n ≤ xs.length) :
    readEntries (overlay out 0 xs) n = .ok (xs.take n) := by
  induction n with
  | zero => rfl
  | succ n ih =>
    have hx : overlay out 0 xs n = some xs[n] := by
      rw [overlay_apply out hn, List.getElem?_eq_getElem hn]
    rw [readEntries, ih (by omega)]
    simp only [bind, Except.bind, hx]
    rw [List.take_succ_eq_append_getElem hn]
    rfl

theorem scanAndDestoryTree_spec (node : Node fp P) (hv : node.toItem.Valid) :
    ∃ nodes, scanAndDestoryTree node = .ok (node.toItem.entries, nodes) ∧
      ∀ n ∈ nodes, Reusable n := by
  have hsize : node.header.size = node.toItem.entries.length := hv.size_eq
  have hscans : Scans node.toItem.entries.length node.toItem := hv.scans
  obtain ⟨nodes, hscan, hnodes⟩ := hscans 0 (fun _ => none) le_rfl (by rw [zero_add])
  refine ⟨nodes, ?_, hnodes⟩
  have hread := readEntries_overlay (fun _ => none) node.toItem.entries le_rfl
  rw [List.take_length] at hread
  simp only [scanAndDestoryTree, hsize, Int.toNat_natCast]
  rw [hscan]
  simp only [bind, Except.bind, hread]
  rfl

end LearnedIndexFramework.Lippol
