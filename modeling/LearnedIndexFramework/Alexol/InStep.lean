import LearnedIndexFramework.Alexol.BulkLoad
import LearnedIndexFramework.Alexol.Downwards
import LearnedIndexFramework.Alexol.ExpandRoot
import LearnedIndexFramework.Lib.Run

/-! The calls of the index keep the root pointers in step, as long as no call reaches a path that
forgets one of them. -/

namespace LearnedIndexFramework.Alexol

open Lib Function

variable {K : Type}

/-- The cached root is the child of the superroot, and `get_leaf` finds a data node of the tree that
nobody holds. -/
structure Index.InStep (s : Index K) : Prop where
  root : s.child s.superroot 0 = some s.rootNode
  leaf : ∀ key, ∃ leaf, s.getLeaf key = some leaf ∧ s.isLeaf leaf = true ∧
    s.locked leaf = false ∧ leaf ∉ s.scheduled

section

variable {s s' : Index K} {T : Set Addr} {g : Places} {chain : List Addr} {leaf : Addr} {key : K}

theorem Valid.inStep (hs : Valid s) : s.InStep := by
  obtain ⟨T, g, chain, h, hread, hlocked⟩ := hs
  refine ⟨h.superroot_child, fun key => ?_⟩
  obtain ⟨leaf, hmem, hget⟩ := h.getLeaf_mem hread key
  have hok := h.leaf leaf hmem
  exact ⟨leaf, hget, hok.isLeaf, hlocked leaf hmem, hok.unscheduled⟩

/-! ### What the calls leave alone -/

theorem Layout.keepLock (h : Layout s T g chain) (leaf : Addr) :
    Layout (s.keepLock leaf) T g chain := by
  refine
    { h with
      node := fun a ha hf => ?_
      leaf := fun a ha => ?_ }
  · exact (h.node a ha hf).congr_of_mem ha subset_rfl (fun _ _ => ⟨rfl, rfl, rfl, rfl, rfl⟩)
      fun _ _ => ⟨rfl, rfl, rfl, rfl⟩
  · have hok := h.leaf a ha
    exact ⟨hok.isLeaf, hok.lt_fresh, hok.unscheduled⟩

theorem Valid.counted (hs : Valid s) (numKeys : ℤ) (insertCounter eraseCounter : ℕ) :
    Valid { s with numKeys, insertCounter, eraseCounter } := by
  obtain ⟨T, g, chain, h, hread, hlocked⟩ := hs
  refine ⟨T, g, chain, { h with leaf := fun a ha => ?_ }, hread, hlocked⟩
  have hok := h.leaf a ha
  exact ⟨hok.isLeaf, hok.lt_fresh, hok.unscheduled⟩

theorem Valid.countInsert (hs : Valid s) : Valid s.countInsert := hs.counted _ _ _

theorem Valid.countErase (hs : Valid s) (numErased : ℕ) : Valid (s.countErase numErased) :=
  hs.counted _ _ _

/-! ### Safe calls -/

def Index.PredictsSlot (s : Index K) (key : K) (leaf : Addr) : Prop :=
  ∀ p b, s.lockParentNode key leaf = some (p, b) →
    s.bucketID p key / s.repeats p leaf = b / s.repeats p leaf

def InsertFlag.SafeAt (s : Index K) (key : K) (leaf : Addr) (fanoutTreeDepth : ℕ) :
    InsertFlag → Prop
  | .duplicate | .inserted | .locking => True
  | .resizing => s.isLeaf s.rootNode = false
  | .costDeviation =>
    if fanoutTreeDepth = 0 then s.isLeaf s.rootNode = false
    else (s.keepLock leaf).PredictsSlot key leaf
  | .catastrophicCost | .maxCapacity => (s.keepLock leaf).PredictsSlot key leaf

/-- A call that stays off the paths that miss a pointer: no data node is replaced that is the root,
none is split by a key of its neighbour's slots, and the root does not expand to slots that are
predicted and stay unwritten. -/
def Call.Safe (s : Index K) : Call K → Prop
  | .bulkLoad _ _ => True
  | .insert key c =>
    (∀ x, c.expansion = some x → s.isLeaf s.rootNode = false → x.Covers s) ∧
      ∀ s₁ leaf, s.expandDomain c = .ok s₁ → s₁.getLeaf key = some leaf →
        c.flag.SafeAt s₁ key leaf c.split.depth
  | .erase _ flag _ => flag = .contraction → s.isLeaf s.rootNode = false

theorem Valid.expandDomain (hs : Valid s) {c : InsertChoice K}
    (hsafe : ∀ x, c.expansion = some x → s.isLeaf s.rootNode = false → x.Covers s)
    (hcall : s.expandDomain c = .ok s') : Valid s' := by
  rw [Index.expandDomain] at hcall
  split at hcall
  case h_1 x hx =>
    split at hcall
    case isTrue =>
      cases hcall
      exact hs
    case isFalse hmodel =>
      have hmodel := Bool.eq_false_iff.mpr hmodel
      obtain ⟨T, g, chain, h, hread, hlocked⟩ := hs
      exact h.expandRoot hread hlocked hmodel (hsafe x hx hmodel) hcall
  case h_2 =>
    cases hcall
    exact hs

theorem Layout.locked_leaf (hlocked : ∀ a ∈ chain, s.locked a = false) (leaf : Addr) :
    ∀ a ∈ chain, a ≠ leaf → (s.keepLock leaf).locked a = false :=
  fun a ha hne => (update_of_ne hne _ _).trans (hlocked a ha)

theorem Layout.replaceLocked (h : Layout s T g chain) (hread : Readable s.toHeap T)
    (hlocked : ∀ a ∈ chain, s.locked a = false) (hleaf : leaf ∈ chain)
    (hroot : s.isLeaf s.rootNode = false)
    (hcall : (s.keepLock leaf).replaceDataNode key leaf = .ok s') : Valid s' :=
  (h.keepLock leaf).replaceDataNode hread hleaf hroot (Layout.locked_leaf hlocked leaf) hcall

theorem Layout.splitLocked (h : Layout s T g chain) (hread : Readable s.toHeap T)
    (hlocked : ∀ a ∈ chain, s.locked a = false) (hleaf : leaf ∈ chain) {c : Split K}
    (hslot : (s.keepLock leaf).PredictsSlot key leaf)
    (hcall : (s.keepLock leaf).splitSidewaysDownwardsWithoutParent c key leaf = .ok s') :
    Valid s' :=
  (h.keepLock leaf).splitSidewaysDownwardsWithoutParent hread hleaf
    (Layout.locked_leaf hlocked leaf) hslot hcall

variable {r : CallReply}

theorem Valid.afterInsert (hs : Valid s) {c : InsertChoice K} (hget : s.getLeaf key = some leaf)
    (hsafe : c.flag.SafeAt s key leaf c.split.depth)
    (hcall : s.afterInsert c key leaf = .ok (r, s')) : Valid s' := by
  obtain ⟨T, g, chain, h, hread, hlocked⟩ := id hs
  have hleaf : leaf ∈ chain := by
    obtain ⟨leaf', hmem, hget'⟩ := h.getLeaf_mem hread key
    rwa [← Option.some_inj.mp (hget.symm.trans hget')] at hmem
  rw [Index.afterInsert] at hcall
  cases hflag : c.flag with
  | locking =>
    rw [hflag] at hcall
    cases hcall
  | duplicate =>
    rw [hflag] at hcall
    cases hcall
    exact hs
  | inserted =>
    rw [hflag] at hcall
    cases hcall
    exact hs.countInsert
  | resizing =>
    rw [hflag] at hcall hsafe
    obtain ⟨s₁, hreplace, hret⟩ := bind_eq_ok.mp hcall
    cases hret
    exact h.replaceLocked hread hlocked hleaf hsafe hreplace
  | costDeviation =>
    rw [hflag] at hcall hsafe
    by_cases hdepth : c.split.depth = 0
    · simp only [InsertFlag.SafeAt, if_pos hdepth] at hcall hsafe
      obtain ⟨s₁, hreplace, hret⟩ := bind_eq_ok.mp hcall
      cases hret
      exact (h.replaceLocked hread hlocked hleaf hsafe hreplace).countInsert
    · simp only [InsertFlag.SafeAt, if_neg hdepth] at hcall hsafe
      obtain ⟨s₁, hsplit, hret⟩ := bind_eq_ok.mp hcall
      cases hret
      exact (h.splitLocked hread hlocked hleaf hsafe hsplit).countInsert
  | catastrophicCost =>
    rw [hflag] at hcall hsafe
    obtain ⟨s₁, hstep, hret⟩ := bind_eq_ok.mp hcall
    cases hret
    exact (h.splitLocked hread hlocked hleaf hsafe hstep).countInsert
  | maxCapacity =>
    rw [hflag] at hcall hsafe
    obtain ⟨s₁, hstep, hret⟩ := bind_eq_ok.mp hcall
    cases hret
    exact (h.splitLocked hread hlocked hleaf hsafe hstep).countInsert

theorem Valid.insert (hs : Valid s) {c : InsertChoice K} (hsafe : (Call.insert key c).Safe s)
    (hcall : s.insert c key = .ok (r, s')) : Valid s' := by
  obtain ⟨s₁, hexpand, hcall⟩ := bind_eq_ok.mp hcall
  obtain ⟨leaf, hget, hcall⟩ := bind_eq_ok.mp hcall
  rw [orStop_eq_ok] at hget
  have hs₁ := hs.expandDomain hsafe.1 hexpand
  obtain ⟨leaf', hget', -, hfree, -⟩ := hs₁.inStep.leaf key
  obtain rfl := Option.some_inj.mp (hget.symm.trans hget')
  rw [hfree, if_neg Bool.false_ne_true] at hcall
  exact hs₁.afterInsert hget (hsafe.2 s₁ leaf hexpand hget) hcall

theorem Valid.erase (hs : Valid s) {flag : EraseFlag} {numErased : ℕ}
    (hsafe : (Call.erase key flag numErased).Safe s)
    (hcall : s.erase flag numErased key = .ok (r, s')) : Valid s' := by
  obtain ⟨leaf, hget, hcall⟩ := bind_eq_ok.mp hcall
  rw [orStop_eq_ok] at hget
  obtain ⟨leaf', hget', -, hfree, -⟩ := hs.inStep.leaf key
  obtain rfl := Option.some_inj.mp (hget.symm.trans hget')
  rw [hfree, if_neg Bool.false_ne_true] at hcall
  cases flag with
  | locking => cases hcall
  | erased =>
    cases hcall
    exact hs.countErase numErased
  | contraction =>
    obtain ⟨s₁, hreplace, hret⟩ := bind_eq_ok.mp hcall
    cases hret
    obtain ⟨T, g, chain, h, hread, hlocked⟩ := hs
    refine Valid.countErase (h.replaceLocked hread hlocked ?_ (hsafe rfl) hreplace) numErased
    obtain ⟨leaf', hmem, hget'⟩ := h.getLeaf_mem hread key
    rwa [← Option.some_inj.mp (hget.symm.trans hget')] at hmem

theorem Valid.call (hs : Valid s) {c : Call K} (hsafe : c.Safe s)
    (hcall : s.call c = .ok (r, s')) : Valid s' := by
  cases c with
  | bulkLoad numKeys plan =>
    cases hcall
    exact s.bulkLoad_valid hs numKeys plan
  | insert key c => exact hs.insert hsafe hcall
  | erase key flag numErased => exact hs.erase hsafe hcall

end

/-! ### Testing the condition -/

instance (s : Index K) (key : K) (leaf : Addr) : Decidable (s.PredictsSlot key leaf) :=
  decidable_of_iff (∀ pb ∈ s.lockParentNode key leaf,
    s.bucketID pb.1 key / s.repeats pb.1 leaf = pb.2 / s.repeats pb.1 leaf)
    ⟨fun h p b hb => h (p, b) hb, fun h pb hb => h pb.1 pb.2 hb⟩

instance (s : Index K) (key : K) (leaf : Addr) (depth : ℕ) (flag : InsertFlag) :
    Decidable (flag.SafeAt s key leaf depth) :=
  match flag with
  | .duplicate | .inserted | .locking => inferInstanceAs (Decidable True)
  | .resizing => inferInstanceAs (Decidable (s.isLeaf s.rootNode = false))
  | .costDeviation =>
    inferInstanceAs (Decidable (if depth = 0 then s.isLeaf s.rootNode = false
      else (s.keepLock leaf).PredictsSlot key leaf))
  | .catastrophicCost | .maxCapacity =>
    inferInstanceAs (Decidable ((s.keepLock leaf).PredictsSlot key leaf))

def Call.testSafe (s : Index K) : Call K → Bool
  | .bulkLoad _ _ => true
  | .insert key c =>
    c.expansion.isNone && (s.getLeaf key).all fun leaf =>
      decide (c.flag.SafeAt s key leaf c.split.depth)
  | .erase _ flag _ => flag != .contraction || !s.isLeaf s.rootNode

theorem Call.safe_of_testSafe {s : Index K} {c : Call K} (h : c.testSafe s = true) : c.Safe s := by
  cases c with
  | bulkLoad numKeys plan => trivial
  | insert key c =>
    rw [testSafe, Bool.and_eq_true, Option.isNone_iff_eq_none] at h
    obtain ⟨hnone, hall⟩ := h
    refine ⟨fun x hx => ?_, fun s₁ leaf hs₁ hget => ?_⟩
    · rw [hnone] at hx
      cases hx
    · rw [Index.expandDomain, hnone] at hs₁
      cases hs₁
      rw [hget] at hall
      exact of_decide_eq_true hall
  | erase key flag numErased =>
    rintro rfl
    exact Bool.not_eq_true' _ ▸ h

def twoBuckets : LinearModel ℕ where
  predictDouble key := if key = 0 then 0 else 1
  near _ := none

def noLimits : Limits ℕ where
  maxAbove _ := true
  minBelow _ := true

def answer (flag : InsertFlag) : InsertChoice ℕ where
  expansion := none
  flag
  split :=
    { tree := .split (.used ()) (.used ())
      depth := 1
      height_le := Nat.le_refl 1
      limits := fun _ => noLimits
      model := twoBuckets
      expandedNear := fun _ => none }

def twoLeaves : Plan ℕ :=
  .model twoBuckets 0 (.split (.used (.data noLimits)) (.used (.data noLimits)))

def twoLeavesRun : List (Call ℕ) :=
  [.bulkLoad 2 twoLeaves, .insert 0 (answer .resizing), .insert 1 (answer .maxCapacity),
    .erase 0 .contraction 1]

end LearnedIndexFramework.Alexol
