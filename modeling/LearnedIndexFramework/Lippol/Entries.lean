import LearnedIndexFramework.Lippol.Model
import Mathlib.Algebra.Order.Floor.Ring
import Mathlib.Tactic.Linarith

/-! What a tree stores, in slot order, and the invariant of its nodes. -/

namespace LearnedIndexFramework.Lippol

open Lib Function

variable {P : Type}

section Predict

variable {h : Header fp} {k k' : ℕ}

theorem predictPos_le (h : Header fp) (k : ℕ) : h.predictPos k ≤ h.numItems - 1 := by
  unfold Header.predictPos
  dsimp only
  split
  · exact le_rfl
  split
  · exact Nat.zero_le _
  · exact min_le_left _ _

theorem predictPos_lt (hpos : 0 < h.numItems) (k : ℕ) : h.predictPos k < h.numItems := by
  have := predictPos_le h k
  omega

theorem predictPos_congr {h h' : Header fp} (hnum : h.numItems = h'.numItems)
    (hv : h.predictDouble k = h'.predictDouble k') : h.predictPos k = h'.predictPos k' := by
  unfold Header.predictPos
  rw [hnum, hv]

theorem truncate_of_nonneg {q : ℚ} (h : 0 ≤ q) : truncate q = ⌊q⌋ := if_pos h

theorem predictDouble_mono (ha : 0 ≤ h.a) (hk : k ≤ k') :
    h.predictDouble k ≤ h.predictDouble k' := by
  have hkey : fp.longDouble k ≤ fp.longDouble k' := fp.longDouble_mono (by exact_mod_cast hk)
  have hmul := fp.longDouble_mono (mul_le_mul_of_nonneg_left hkey ha)
  exact fp.double_mono (fp.longDouble_mono (add_le_add_left hmul h.b))

theorem predictPos_mono (ha : 0 ≤ h.a) (hk : k ≤ k') : h.predictPos k ≤ h.predictPos k' := by
  have hv := predictDouble_mono ha hk
  have hbound := predictPos_le h k
  unfold Header.predictPos at hbound ⊢
  dsimp only at hbound ⊢
  by_cases htop : h.predictDouble k' > 1073741823
  · rw [if_pos htop]
    exact hbound
  · rw [if_neg htop, if_neg (by linarith)]
    by_cases hneg : h.predictDouble k < 0
    · rw [if_pos hneg]
      exact Nat.zero_le _
    · rw [if_neg hneg, if_neg (by linarith), truncate_of_nonneg (by linarith),
        truncate_of_nonneg (by linarith)]
      exact min_le_min_left _ (Int.toNat_le_toNat (Int.floor_le_floor hv))

theorem lt_of_predictPos_lt (ha : 0 ≤ h.a) (hlt : h.predictPos k < h.predictPos k') : k < k' := by
  by_contra hle
  have := predictPos_mono ha (not_lt.mp hle)
  omega

end Predict

def Item.entries : Item fp P → List (ℕ × P)
  | .empty => []
  | .data key value => [(key, value)]
  | .child header items => (List.range header.numItems).flatMap fun i => (items i).entries

def slotEntries (n : ℕ) (items : ℕ → Item fp P) : List (ℕ × P) :=
  (List.range n).flatMap fun i => (items i).entries

@[simp] theorem entries_empty : (Item.empty : Item fp P).entries = [] := rfl

@[simp] theorem entries_data (k : ℕ) (v : P) :
    (Item.data k v : Item fp P).entries = [(k, v)] := rfl

theorem entries_child (h : Header fp) (items : ℕ → Item fp P) :
    (Item.child h items).entries = slotEntries h.numItems items := rfl

section Slots

variable {n pos : ℕ} {items items' : ℕ → Item fp P}

theorem slotEntries_succ (n : ℕ) (items : ℕ → Item fp P) :
    slotEntries (n + 1) items = slotEntries n items ++ (items n).entries := by
  simp [slotEntries, List.range_succ]

theorem mem_slotEntries {v : ℕ × P} :
    v ∈ slotEntries n items ↔ ∃ i < n, v ∈ (items i).entries := by
  simp [slotEntries]

theorem slotEntries_congr (h : ∀ i < n, (items i).entries = (items' i).entries) :
    slotEntries n items = slotEntries n items' := by
  induction n with
  | zero => rfl
  | succ n ih =>
    rw [slotEntries_succ, slotEntries_succ, ih fun i hi => h i (by omega), h n (by omega)]

theorem slotEntries_update (hpos : pos < n) (items : ℕ → Item fp P) :
    ∃ before after, ∀ s, slotEntries n (update items pos s) = before ++ (s.entries ++ after) := by
  induction n with
  | zero => omega
  | succ n ih =>
    rcases Nat.lt_succ_iff_lt_or_eq.mp hpos with hlt | rfl
    · obtain ⟨before, after, hsplit⟩ := ih hlt
      refine ⟨before, after ++ (items n).entries, fun s => ?_⟩
      rw [slotEntries_succ, hsplit, update_of_ne (by omega)]
      simp
    · refine ⟨slotEntries pos items, [], fun s => ?_⟩
      rw [slotEntries_succ, update_self, List.append_nil]
      congr 1
      exact slotEntries_congr fun i hi => by rw [update_of_ne (by omega)]

end Slots

structure NodeOk (h : Header fp) (items : ℕ → Item fp P) : Prop where
  numItems_pos : 0 < h.numItems
  slope_nonneg : 0 ≤ h.a
  two : h.isTwo = true → h.buildSize = 2 ∧ h.numItems = 8 ∧ h.fixed = false
  size_eq : h.size = (slotEntries h.numItems items).length
  routed : ∀ i < h.numItems, ∀ v ∈ (items i).entries, h.predictPos v.1 = i

def Item.Valid : Item fp P → Prop
  | .empty => True
  | .data _ _ => True
  | .child header items => NodeOk header items ∧ ∀ i < header.numItems, (items i).Valid

def Item.Full : Item fp P → Prop
  | .child header items => slotEntries header.numItems items ≠ [] ∧
      ∀ i < header.numItems, (items i).Full
  | _ => True

def Ascending (vs : List (ℕ × P)) : Prop := vs.Pairwise fun v w => v.1 < w.1

theorem slotEntries_ascending {h : Header fp} {items : ℕ → Item fp P} (ha : 0 ≤ h.a) {n : ℕ}
    (hroute : ∀ i < n, ∀ v ∈ (items i).entries, h.predictPos v.1 = i)
    (hslot : ∀ i < n, Ascending (items i).entries) : Ascending (slotEntries n items) := by
  induction n with
  | zero => exact .nil
  | succ n ih =>
    rw [slotEntries_succ]
    refine List.pairwise_append.mpr ⟨ih (fun i hi => hroute i (by omega)) fun i hi =>
      hslot i (by omega), hslot n (by omega), fun v hv w hw => ?_⟩
    obtain ⟨i, hi, hv⟩ := mem_slotEntries.mp hv
    have hposv := hroute i (by omega) v hv
    have hposw := hroute n (by omega) w hw
    exact lt_of_predictPos_lt ha (by omega)

theorem Item.Valid.ascending {item : Item fp P} (hv : item.Valid) : Ascending item.entries := by
  induction item with
  | empty => exact .nil
  | data k v => exact List.pairwise_singleton _ _
  | child h items ih =>
    obtain ⟨hok, hslots⟩ := hv
    exact slotEntries_ascending hok.slope_nonneg hok.routed fun i hi => ih i (hslots i hi)

theorem Ascending.eq_of_mem_iff {vs ws : List (ℕ × P)} (hvs : Ascending vs) (hws : Ascending ws)
    (h : ∀ v, v ∈ vs ↔ v ∈ ws) : vs = ws := by
  have hnodup : ∀ {us : List (ℕ × P)}, Ascending us → us.Nodup := fun hus =>
    hus.imp fun hlt heq => absurd (heq ▸ hlt) (lt_irrefl _)
  refine List.Perm.eq_of_pairwise (fun v w _ _ h1 h2 => absurd (h1.trans h2) (lt_irrefl _))
    hvs hws ?_
  exact (List.perm_ext_iff_of_nodup (hnodup hvs) (hnodup hws)).mpr h

def Item.reach (key : ℕ) : Item fp P → Item fp P
  | .child header items => (items (header.predictPos key)).reach key
  | item => item

def Item.pathSize (key : ℕ) : Item fp P → ℕ
  | .child header items => (items (header.predictPos key)).pathSize key + 1
  | _ => 0

theorem mem_entries_iff_reach {item : Item fp P} (hv : item.Valid) {k : ℕ} {v : P} :
    (k, v) ∈ item.entries ↔ item.reach k = .data k v := by
  induction item with
  | empty => simp [Item.reach]
  | data k' v' => simp [Item.reach, eq_comm]
  | child h items ih =>
    obtain ⟨hok, hslots⟩ := hv
    have hlt := predictPos_lt hok.numItems_pos k
    rw [Item.reach, ← ih _ (hslots _ hlt), entries_child, mem_slotEntries]
    constructor
    · rintro ⟨i, hi, hmem⟩
      have := hok.routed i hi _ hmem
      rwa [this]
    · exact fun hmem => ⟨_, hlt, hmem⟩

theorem reach_ne_child {item : Item fp P} {k : ℕ} {h : Header fp} {items : ℕ → Item fp P} :
    item.reach k ≠ .child h items := by
  induction item with
  | empty => simp [Item.reach]
  | data => simp [Item.reach]
  | child h' items' ih => exact ih _

theorem mem_entries_of_reach {item : Item fp P} {key k : ℕ} {v : P} (hv : item.Valid)
    (hreach : item.reach key = .data k v) : (k, v) ∈ item.entries := by
  induction item with
  | empty => cases hreach
  | data k' v' =>
    obtain ⟨rfl, rfl⟩ := Item.data.inj hreach
    exact List.mem_cons_self
  | child h items ih =>
    have hlt := predictPos_lt hv.1.numItems_pos key
    exact mem_slotEntries.mpr ⟨_, hlt, ih _ (hv.2 _ hlt) hreach⟩

end LearnedIndexFramework.Lippol
