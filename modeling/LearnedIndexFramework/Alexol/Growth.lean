import LearnedIndexFramework.Alexol.Outermost
import Mathlib.Data.Nat.ModEq

/-! The root after an expansion, before its new slots are filled. -/

namespace LearnedIndexFramework.Alexol

open Lib Function

variable {K : Type}

/-! Of `num` slots, the old children are in `n` on one side. -/

def Side.newStart : Side → ℕ → ℕ
  | .left, _ => 0
  | .right, n => n

def Side.newEnd : Side → ℕ → ℕ → ℕ
  | .left, n, num => num - n
  | .right, _, num => num

def Side.IsOld : Side → ℕ → ℕ → ℕ → Prop
  | .left, n, num, i => num - n ≤ i
  | .right, n, _, i => i < n

structure Grown (gr : Growth K) (side : Side) (n e : ℕ) : Prop where
  size : ∃ k, n = 2 ^ k
  numChildren : gr.index.numChildren gr.index.rootNode = n * 2 ^ e
  newNodesStart : gr.newNodesStart = side.newStart n
  newNodesEnd : gr.newNodesEnd = side.newEnd n (n * 2 ^ e)
  old : ∀ i c, gr.index.child gr.index.rootNode i = some c → side.IsOld n (n * 2 ^ e) i

structure KeepsTree (s s' : Index K) (T T' : Set Addr) (g g' : Places) : Prop where
  leaf : ∀ a ∈ T', s'.isLeaf a = true → a ∈ T
  isLeaf : ∀ a ∈ T, s'.isLeaf a = s.isLeaf a
  rootIsLeaf : s'.isLeaf s'.rootNode = false
  lo : ∀ a ∈ T, g'.lo a = g.lo a
  hi : ∀ a ∈ T, g'.hi a = g.hi a
  root : g'.Inside s'.rootNode s.rootNode
  read : ∀ a ∈ T', a ≠ s'.rootNode → s'.isLeaf a = false →
    ∀ key, (s'.child a (s'.bucketID a key)).isSome
  locked : s'.locked = s.locked

section

variable {s s' : Index K} {T : Set Addr} {g : Places} {chain : List Addr} {n e shift : ℕ}

theorem Layout.root_isParent (h : Layout s T g chain) :
    Layout.IsParent s T s.rootNode s.superroot 0 :=
  ⟨h.superroot_mem, h.superroot_isLeaf, h.superroot_child⟩

theorem Layout.root_ne_superroot (h : Layout s T g chain) : s.rootNode ≠ s.superroot := by
  intro heq
  have hlevel := h.superroot_level
  rw [heq] at hlevel
  omega

def Places.regroup (g : Places) (h : Heap K) (root e shift : ℕ) : Places :=
  { g with
    block := fun a =>
      if g.parent a = root then (shift / h.repeats root a + g.block a) / 2 ^ e else g.block a }

structure Widens (s s' : Index K) (e shift : ℕ) : Prop where
  eq : ∃ model children, s' = { s with
    model := update s.model s.rootNode model
    numChildren := update s.numChildren s.rootNode (s.numChildren s.rootNode * 2 ^ e)
    children := update s.children s.rootNode children }
  dvd : s.numChildren s.rootNode ∣ shift
  child : ∀ i c, s'.child s.rootNode i = some c → ∃ j, i = shift + j ∧ s.child s.rootNode j = some c

theorem Widens.numChildren (hw : Widens s s' e shift) :
    s'.numChildren s.rootNode = s.numChildren s.rootNode * 2 ^ e := by
  obtain ⟨model, children, rfl⟩ := hw.eq
  exact update_self _ _ _

theorem Widens.same (hw : Widens s s' e shift) {a : Addr} (hne : a ≠ s.rootNode) :
    SameShape s.toHeap s'.toHeap a := by
  obtain ⟨model, children, rfl⟩ := hw.eq
  exact ⟨rfl, rfl, rfl, update_of_ne hne _ _, update_of_ne hne _ _⟩

theorem Widens.repeats (hw : Widens s s' e shift) (h : Layout s T g chain)
    (hmodel : s.isLeaf s.rootNode = false) {i c : ℕ} (hi : s.child s.rootNode i = some c) :
    s'.repeats s.rootNode c = s.repeats s.rootNode c * 2 ^ e ∧
      s.repeats s.rootNode c ∣ s.numChildren s.rootNode := by
  obtain ⟨k, hk⟩ := (h.node _ h.root_pointer.mem hmodel).size
  have hdepth := (h.pointer h.root_pointer.mem hmodel hi).depth
  have hlocal : s'.localDepth c = s.localDepth c := by
    obtain ⟨model, children, rfl⟩ := hw.eq
    rfl
  rw [hk, Nat.log2_two_pow] at hdepth
  constructor
  · rw [Heap.repeats, Heap.repeats, hw.numChildren, hlocal, hk, ← Nat.pow_add, ← Nat.pow_add,
      Nat.log2_two_pow, Nat.log2_two_pow]
    congr 1
    omega
  · rw [Heap.repeats, hk, Nat.log2_two_pow]
    exact Nat.pow_dvd_pow 2 (Nat.sub_le _ _)

theorem Layout.widen (h : Layout s T g chain) (hmodel : s.isLeaf s.rootNode = false)
    (hw : Widens s s' e shift) :
    Layout s' T (g.regroup s.toHeap s.rootNode e shift) chain := by
  have hroot := h.root_pointer.mem
  have hok := h.node _ hroot hmodel
  have hsuper := h.root_ne_superroot.symm
  obtain ⟨model, children, hs'⟩ := hw.eq
  have hisLeaf : s'.isLeaf = s.isLeaf := by rw [hs']
  have hlocal : s'.localDepth = s.localDepth := by rw [hs']
  have hlevel : s'.level = s.level := by rw [hs']
  have hfresh : s'.fresh = s.fresh := by rw [hs']
  have hrootNode : s'.rootNode = s.rootNode := by rw [hs']
  have hsuperroot : s'.superroot = s.superroot := by rw [hs']
  have hscheduled : s'.scheduled = s.scheduled := by rw [hs']
  have hrootOk : NodeOk s'.toHeap T (g.regroup s.toHeap s.rootNode e shift) s.rootNode := by
    refine ⟨?_, fun i c hi => ?_, fun i j c d hij hi hj hcd => ?_⟩
    · obtain ⟨k, hk⟩ := hok.size
      exact ⟨k + e, by rw [hw.numChildren, hk, Nat.pow_add]⟩
    · obtain ⟨j, rfl, hj⟩ := hw.child i c hi
      have hptr := hok.pointer j c hj
      obtain ⟨hrepeats, hdvd⟩ := hw.repeats h hmodel hj
      have hpos := s.repeats_pos s.rootNode c
      refine ⟨hptr.mem, ?_, ?_, hptr.parent, ?_, hptr.lo, hptr.hi⟩
      · rw [hlevel]
        exact hptr.level
      · rw [hlocal, hw.numChildren]
        refine hptr.depth.trans ?_
        rw [Nat.log2_eq_log_two, Nat.log2_eq_log_two]
        exact Nat.log_mono_right (Nat.le_mul_of_pos_right _ (Nat.two_pow_pos e))
      · rw [hrepeats, ← Nat.div_div_eq_div_mul, Nat.add_div_of_dvd_right (hdvd.trans hw.dvd),
          hptr.block]
        exact (if_pos hptr.parent).symm
    · obtain ⟨i, rfl, hi'⟩ := hw.child i c hi
      obtain ⟨j, rfl, hj'⟩ := hw.child j d hj
      exact hok.order i j c d (Nat.lt_of_add_lt_add_left hij) hi' hj' hcd
  refine
    { h with
      node := fun a ha hf => ?_
      lt_fresh := fun a ha => hfresh ▸ h.lt_fresh a ha
      superroot_mem := hsuperroot ▸ h.superroot_mem
      superroot_isLeaf := by rw [hisLeaf, hsuperroot, h.superroot_isLeaf]
      superroot_numChildren := by
        rw [hsuperroot, (hw.same hsuper).numChildren, h.superroot_numChildren]
      superroot_child := by
        rw [hsuperroot, (hw.same hsuper).child, hrootNode, h.superroot_child]
      superroot_level := by rw [hlevel, hsuperroot, hrootNode, h.superroot_level]
      top := fun a ha hf i hi => ?_
      linked := by rw [hs']; exact h.linked
      mem_chain := fun a ha hl => h.mem_chain a ha (hisLeaf ▸ hl)
      leaf := fun a ha => ?_
      scheduled_lt := fun a ha => hfresh ▸ h.scheduled_lt a (hscheduled ▸ ha) }
  · by_cases hra : a = s.rootNode
    · exact hra ▸ hrootOk
    · rw [hisLeaf] at hf
      refine (h.node a ha hf).congr (hw.same hra) rfl rfl fun i c hi => ?_
      have hptr := h.pointer ha hf hi
      exact ⟨hptr.mem, congrFun hlocal c, congrFun hlevel c, rfl,
        if_neg (hptr.parent ▸ hra), rfl, rfl⟩
  · rw [hsuperroot] at hi
    rw [hisLeaf] at hf
    by_cases hra : a = s.rootNode
    · subst hra
      obtain ⟨j, -, hj⟩ := hw.child i _ hi
      exact h.top _ ha hf j hj
    · rw [(hw.same hra).child] at hi
      exact h.top a ha hf i hi
  · have hok := h.leaf a ha
    exact ⟨hisLeaf ▸ hok.isLeaf, hfresh ▸ hok.lt_fresh, hscheduled ▸ hok.unscheduled⟩

theorem Heap.child_update {h : Heap K} {model : Addr → LinearModel K} {a i c : ℕ}
    {children : ℕ → Option Addr}
    (hi : Heap.child { h with
      model
      numChildren := update h.numChildren a n
      children := update h.children a children } a i = some c) : i < n ∧ children i = some c := by
  simp only [child, update_self] at hi
  split at hi
  case isTrue hlt => exact ⟨hlt, hi⟩
  case isFalse => cases hi

theorem Index.growRoot_widens (s : Index K) (hsize : ∃ k, s.numChildren s.rootNode = 2 ^ k)
    (x : Expansion K) :
    ∃ shift, Widens s (s.growRoot x).index x.log2ExpansionFactor shift ∧
      Grown (s.growRoot x) x.side (s.numChildren s.rootNode) x.log2ExpansionFactor := by
  have hpos := Nat.two_pow_pos x.log2ExpansionFactor
  have hle := Nat.le_mul_of_pos_right (s.numChildren s.rootNode) hpos
  have hdvd : s.numChildren s.rootNode ∣
      s.numChildren s.rootNode * 2 ^ x.log2ExpansionFactor - s.numChildren s.rootNode :=
    Nat.dvd_sub (Nat.dvd_mul_right _ _) dvd_rfl
  rw [growRoot]
  cases x.side with
  | left =>
    refine ⟨_, ⟨⟨x.model, _, rfl⟩, hdvd, fun i c hi => ?_⟩, hsize, update_self _ _ _, rfl, rfl,
      fun i c hi => ?_⟩
    · obtain ⟨hlt, hi⟩ := Heap.child_update hi
      split at hi
      case isTrue hge =>
        refine ⟨_, (Nat.add_sub_cancel' hge).symm, ?_⟩
        rw [Heap.child, if_pos (by omega), hi]
      case isFalse => cases hi
    · obtain ⟨-, hi⟩ := Heap.child_update hi
      split at hi
      case isTrue hge => exact hge
      case isFalse => cases hi
  | right =>
    refine ⟨0, ⟨⟨s.model s.rootNode, _, by rw [update_eq_self]⟩, dvd_zero _, fun i c hi => ?_⟩,
      hsize, update_self _ _ _, rfl, rfl, fun i c hi => ?_⟩
    · obtain ⟨-, hi⟩ := Heap.child_update hi
      refine ⟨i, (Nat.zero_add i).symm, ?_⟩
      rw [Heap.child]
      exact hi
    · obtain ⟨-, hi⟩ := Heap.child_update hi
      split at hi
      case isTrue hlt => exact hlt
      case isFalse => cases hi

theorem Widens.bucketID (hw : Widens s s' e shift) {a : Addr} (hne : a ≠ s.rootNode) (key : K) :
    s'.bucketID a key = s.bucketID a key := by
  have hnum := (hw.same hne).numChildren
  obtain ⟨model, children, rfl⟩ := hw.eq
  rw [Heap.bucketID, Heap.bucketID, hnum]
  simp only [update_of_ne hne]

theorem Layout.growRoot (h : Layout s T g chain) (hread : Readable s.toHeap T)
    (hmodel : s.isLeaf s.rootNode = false) (x : Expansion K) :
    ∃ g', Layout (s.growRoot x).index T g' chain ∧
      Grown (s.growRoot x) x.side (s.numChildren s.rootNode) x.log2ExpansionFactor ∧
      KeepsTree s (s.growRoot x).index T T g g' := by
  have hsize := (h.node _ h.root_pointer.mem hmodel).size
  obtain ⟨shift, hw, hgrown⟩ := s.growRoot_widens hsize x
  have hlayout := h.widen hmodel hw
  generalize (s.growRoot x).index = s' at hw hlayout
  refine ⟨_, hlayout, hgrown, ?_⟩
  obtain ⟨model, children, hs'⟩ := hw.eq
  have hisLeaf : s'.isLeaf = s.isLeaf := by rw [hs']
  have hrootNode : s'.rootNode = s.rootNode := by rw [hs']
  refine ⟨fun a ha _ => ha, fun a _ => congrFun hisLeaf a, ?_, fun _ _ => rfl, fun _ _ => rfl, ?_,
    fun a ha hne hf key => ?_, by rw [hs']⟩
  · rw [hrootNode, hisLeaf, hmodel]
  · rw [hrootNode]
    exact .refl _ _
  · rw [hrootNode] at hne
    rw [hisLeaf] at hf
    rw [(hw.same hne).child, hw.bucketID hne]
    exact hread a ha hf key

structure Crowned (s s' : Index K) (bucketID e : ℕ) : Prop where
  fresh : s'.fresh = s.fresh + 1
  rootNode : s'.rootNode = s.fresh
  superroot : s'.superroot = s.superroot
  scheduled : s'.scheduled = s.scheduled
  nextLeaf : s'.nextLeaf = s.nextLeaf
  prevLeaf : s'.prevLeaf = s.prevLeaf
  locked : s'.locked = s.locked
  same : ∀ a, a < s.fresh → a ≠ s.superroot → SameShape s.toHeap s'.toHeap a ∧
    s'.model a = s.model a
  isLeaf : s'.isLeaf s.fresh = false
  localDepth : s'.localDepth s.fresh = 0
  level : s'.level s.fresh = s.level s.rootNode - 1
  numChildren : s'.numChildren s.fresh = 2 ^ e
  child : ∀ i c, s'.child s.fresh i = some c → i = bucketID ∧ c = s.rootNode
  bucketID : bucketID < 2 ^ e
  superIsLeaf : s'.isLeaf s.superroot = false
  superNumChildren : s'.numChildren s.superroot = 1
  superChild : s'.child s.superroot 0 = some s.fresh
  superLevel : s'.level s.superroot = s.level s.rootNode - 1 - 1

def Places.crown (g : Places) (s : Index K) : Places where
  parent a := if a = s.fresh then s.superroot else if a = s.rootNode then s.fresh else g.parent a
  block a := if a = s.fresh ∨ a = s.rootNode then 0 else g.block a
  lo a := if a = s.fresh then g.lo s.rootNode else g.lo a
  hi a := if a = s.fresh then g.hi s.rootNode else g.hi a

theorem Layout.root_localDepth (h : Layout s T g chain) : s.localDepth s.rootNode = 0 := by
  have hle := h.root_pointer.depth
  rw [h.superroot_numChildren] at hle
  exact Nat.le_zero.mp hle

theorem Layout.crown_lo (h : Layout s T g chain) {a : Addr} (ha : a ∈ T) :
    (g.crown s).lo a = g.lo a := if_neg (h.mem_lt ha).ne

theorem Layout.crown_hi (h : Layout s T g chain) {a : Addr} (ha : a ∈ T) :
    (g.crown s).hi a = g.hi a := if_neg (h.mem_lt ha).ne

theorem Crowned.rootOk {bucketID : ℕ} (hc : Crowned s s' bucketID e) (h : Layout s T g chain) :
    NodeOk s'.toHeap (T ∪ {s.fresh}) (g.crown s) s.fresh := by
  have hroot := h.root_pointer.mem
  have hrsame := (hc.same s.rootNode (h.mem_lt hroot) h.root_ne_superroot).1
  refine ⟨⟨e, hc.numChildren⟩, fun i c hi => ?_, fun i j c d hij hi hj hcd => ?_⟩
  · obtain ⟨rfl, rfl⟩ := hc.child i c hi
    refine ⟨.inl hroot, ?_, ?_, ?_, ?_, ?_, ?_⟩
    · rw [hc.level, hrsame.level]
      exact sub_one_lt _
    · rw [hrsame.localDepth, h.root_localDepth]
      exact Nat.zero_le _
    · exact (if_neg (h.mem_lt hroot).ne).trans (if_pos rfl)
    · rw [Heap.repeats, hrsame.localDepth, h.root_localDepth, hc.numChildren, Nat.log2_two_pow,
        Nat.sub_zero, Nat.div_eq_of_lt hc.bucketID]
      exact (if_pos (.inr rfl)).symm
    · exact (if_pos rfl).trans_le (h.crown_lo hroot).ge
    · exact (h.crown_hi hroot).trans_le (if_pos rfl).ge
  · exact absurd ((hc.child i c hi).2.trans (hc.child j d hj).2.symm) hcd

theorem Crowned.superrootOk {bucketID : ℕ} (hc : Crowned s s' bucketID e)
    (h : Layout s T g chain) :
    NodeOk s'.toHeap (T ∪ {s.fresh}) (g.crown s) s.superroot := by
  have hrptr := h.root_pointer
  refine .single hc.superNumChildren fun c hi => ?_
  obtain rfl := Option.some_inj.mp (hc.superChild.symm.trans hi)
  refine ⟨.inr rfl, ?_, ?_, if_pos rfl, ?_, ?_, ?_⟩
  · rw [hc.superLevel, hc.level]
    exact sub_one_lt _
  · rw [hc.localDepth]
    exact Nat.zero_le _
  · rw [Nat.zero_div]
    exact (if_pos (.inl rfl)).symm
  · rw [h.crown_lo h.superroot_mem]
    exact hrptr.lo.trans (if_pos rfl).ge
  · rw [h.crown_hi h.superroot_mem]
    exact (if_pos rfl).trans_le hrptr.hi

theorem Layout.crown (h : Layout s T g chain) {bucketID : ℕ} (hc : Crowned s s' bucketID e) :
    Layout s' (T ∪ {s.fresh}) (g.crown s) chain := by
  have hsuper := h.mem_lt h.superroot_mem
  have hplace : ∀ a ∈ T, a ≠ s.rootNode → SamePlace g (g.crown s) a := fun a ha hne =>
    ⟨(if_neg (h.mem_lt ha).ne).trans (if_neg hne), if_neg (not_or.mpr ⟨(h.mem_lt ha).ne, hne⟩),
      h.crown_lo ha, h.crown_hi ha⟩
  have hcases : ∀ a ∈ T ∪ {s.fresh}, a = s.fresh ∨ a = s.superroot ∨ a ∈ T ∧ a ≠ s.superroot := by
    rintro a (ha | ha)
    · by_cases heq : a = s.superroot
      · exact .inr (.inl heq)
      · exact .inr (.inr ⟨ha, heq⟩)
    · exact .inl ha
  refine
    { node := fun a ha hf => ?_
      lt_fresh := fun a ha => ?_
      lo_le_hi := fun a => ?_
      superroot_mem := hc.superroot ▸ .inl h.superroot_mem
      superroot_isLeaf := hc.superroot ▸ hc.superIsLeaf
      superroot_numChildren := hc.superroot ▸ hc.superNumChildren
      superroot_child := by rw [hc.superroot, hc.rootNode, hc.superChild]
      superroot_level := by rw [hc.superroot, hc.rootNode, hc.superLevel, hc.level]
      top := fun a ha hf i hi => ?_
      linked := by rw [hc.nextLeaf, hc.prevLeaf]; exact h.linked
      mem_chain := fun a ha hl => ?_
      leaf := fun a ha => ?_
      scheduled_lt := fun a ha => ?_
      sorted := ?_ }
  · rcases hcases a ha with rfl | rfl | ⟨ha, hsa⟩
    · exact hc.rootOk h
    · exact hc.superrootOk h
    · have hsame := (hc.same a (h.mem_lt ha) hsa).1
      rw [hsame.isLeaf] at hf
      refine (h.node a ha hf).congr hsame (h.crown_lo ha) (h.crown_hi ha) fun i c hi => ?_
      have hmem := (h.pointer ha hf hi).mem
      have hcr : c ≠ s.rootNode := by
        rintro rfl
        exact hsa (h.pointer_unique h.root_isParent ha hf hi).1
      have hcs : c ≠ s.superroot := by
        rintro rfl
        exact h.top a ha hf i hi
      have hsame' := (hc.same c (h.mem_lt hmem) hcs).1
      exact ⟨.inl hmem, hsame'.localDepth, hsame'.level, hplace c hmem hcr⟩
  · rw [hc.fresh]
    rcases ha with ha | rfl
    · exact Nat.lt_succ_of_lt (h.mem_lt ha)
    · exact Nat.lt_succ_self _
  · by_cases heq : a = s.fresh
    · simp only [Places.crown, if_pos heq]
      exact h.lo_le_hi _
    · simp only [Places.crown, if_neg heq]
      exact h.lo_le_hi a
  · rw [hc.superroot] at hi
    rcases hcases a ha with rfl | rfl | ⟨ha, hsa⟩
    · exact h.root_ne_superroot (hc.child i _ hi).2.symm
    · have hlt := Heap.child_lt hi
      rw [hc.superNumChildren, Nat.lt_one_iff] at hlt
      rw [hlt, hc.superChild, Option.some_inj] at hi
      exact hsuper.ne' hi
    · have hsame := (hc.same a (h.mem_lt ha) hsa).1
      rw [hsame.isLeaf] at hf
      rw [hsame.child] at hi
      exact h.top a ha hf i hi
  · rcases hcases a ha with rfl | rfl | ⟨ha, hsa⟩
    · exact absurd (hc.isLeaf.symm.trans hl) Bool.noConfusion
    · exact absurd (hc.superIsLeaf.symm.trans hl) Bool.noConfusion
    · rw [(hc.same a (h.mem_lt ha) hsa).1.isLeaf] at hl
      exact h.mem_chain a ha hl
  · have hok := h.leaf a ha
    have hsa : a ≠ s.superroot := by
      rintro rfl
      exact absurd (h.superroot_isLeaf.symm.trans hok.isLeaf) Bool.noConfusion
    refine ⟨(hc.same a hok.lt_fresh hsa).1.isLeaf.trans hok.isLeaf, ?_, ?_⟩
    · rw [hc.fresh]
      exact Nat.lt_succ_of_lt hok.lt_fresh
    · rw [hc.scheduled]
      exact hok.unscheduled
  · rw [hc.scheduled] at ha
    rw [hc.fresh]
    exact Nat.lt_succ_of_lt (h.scheduled_lt a ha)
  · refine h.sorted.imp_of_mem fun {a b} ha hb hab => ?_
    have ha' : (g.crown s).hi a = g.hi a := if_neg (h.leaf a ha).lt_fresh.ne
    have hb' : (g.crown s).lo b = g.lo b := if_neg (h.leaf b hb).lt_fresh.ne
    rw [ha', hb']
    exact hab

def Side.oldBucket : Side → ℕ → ℕ
  | .left, expansionFactor => expansionFactor - 1
  | .right, _ => 0

theorem Side.oldBucket_lt (side : Side) {f : ℕ} (hf : 0 < f) : side.oldBucket f < f := by
  cases side with
  | left => exact Nat.sub_lt hf Nat.one_pos
  | right => exact hf

theorem Index.newRoot_index (s : Index K) (x : Expansion K) :
    (s.newRoot x).index =
      { s with
        toHeap := s.newModelNode 0 (s.level s.rootNode - 1) x.model (2 ^ x.log2ExpansionFactor)
          fun i =>
            if i = x.side.oldBucket (2 ^ x.log2ExpansionFactor) then some s.rootNode else none
        rootNode := s.fresh }.updateSuperrootPointer := by
  rw [newRoot]
  cases x.side with
  | left => rfl
  | right => rfl

theorem Layout.newRoot_crowned (h : Layout s T g chain) (x : Expansion K) :
    Crowned s (s.newRoot x).index (x.side.oldBucket (2 ^ x.log2ExpansionFactor))
      x.log2ExpansionFactor := by
  have hsuper := h.mem_lt h.superroot_mem
  rw [s.newRoot_index]
  refine
    { fresh := rfl
      rootNode := rfl
      superroot := rfl
      scheduled := rfl
      nextLeaf := rfl
      prevLeaf := rfl
      locked := rfl
      same := fun a ha hsa => ⟨⟨update_of_ne ha.ne _ _, update_of_ne ha.ne _ _,
        (update_of_ne hsa _ _).trans (update_of_ne ha.ne _ _), update_of_ne ha.ne _ _,
        (update_of_ne hsa _ _).trans (update_of_ne ha.ne _ _)⟩, update_of_ne ha.ne _ _⟩
      isLeaf := update_self _ _ _
      localDepth := update_self _ _ _
      level := (update_of_ne hsuper.ne' _ _).trans (update_self _ _ _)
      numChildren := update_self _ _ _
      child := fun i c hi => ?_
      bucketID := x.side.oldBucket_lt (Nat.two_pow_pos _)
      superIsLeaf := (update_of_ne hsuper.ne _ _).trans h.superroot_isLeaf
      superNumChildren := (update_of_ne hsuper.ne _ _).trans h.superroot_numChildren
      superChild := ?_
      superLevel := ?_ }
  · simp only [Heap.child, Index.updateSuperrootPointer, Heap.newModelNode, update_self,
      update_of_ne hsuper.ne'] at hi
    split at hi
    case isFalse => cases hi
    case isTrue =>
      split at hi
      case isTrue heq => exact ⟨heq, (Option.some_inj.mp hi).symm⟩
      case isFalse => cases hi
  · have hnum : update s.numChildren s.fresh (2 ^ x.log2ExpansionFactor) s.superroot = 1 :=
      (update_of_ne hsuper.ne _ _).trans h.superroot_numChildren
    simp only [Heap.child, Index.updateSuperrootPointer, Heap.newModelNode, update_self, hnum,
      if_pos Nat.one_pos]
  · simp only [Index.updateSuperrootPointer, Heap.newModelNode, update_self]

theorem Layout.newRoot (h : Layout s T g chain) (hread : Readable s.toHeap T)
    (x : Expansion K) :
    ∃ g', Layout (s.newRoot x).index (T ∪ {s.fresh}) g' chain ∧
      Grown (s.newRoot x) x.side 1 x.log2ExpansionFactor ∧
      KeepsTree s (s.newRoot x).index T (T ∪ {s.fresh}) g g' := by
  have hc := h.newRoot_crowned x
  refine ⟨g.crown s, h.crown hc, ?_, ?_⟩
  · refine ⟨⟨0, rfl⟩, ?_, ?_, ?_, fun i c hi => ?_⟩
    · rw [hc.rootNode, hc.numChildren, Nat.one_mul]
    · simp only [Index.newRoot]
      cases x.side with
      | left => rfl
      | right => rfl
    · simp only [Index.newRoot, Nat.one_mul]
      cases x.side with
      | left => exact congrArg (· - 1) (Nat.zero_add _)
      | right => exact Nat.add_sub_cancel_left 1 _
    · rw [hc.rootNode] at hi
      obtain ⟨rfl, -⟩ := hc.child i c hi
      rw [Nat.one_mul]
      cases x.side with
      | left => exact le_rfl
      | right => exact Nat.one_pos
  · generalize (s.newRoot x).index = s' at hc
    have hne : ∀ a ∈ T, a ≠ s.fresh := fun a ha => (h.mem_lt ha).ne
    have hisLeaf : ∀ a ∈ T, s'.isLeaf a = s.isLeaf a := by
      intro a ha
      by_cases hsa : a = s.superroot
      · rw [hsa, hc.superIsLeaf, h.superroot_isLeaf]
      · exact (hc.same a (h.mem_lt ha) hsa).1.isLeaf
    refine ⟨fun a ha hl => ?_, hisLeaf, ?_, fun a ha => if_neg (hne a ha),
      fun a ha => if_neg (hne a ha), ?_, fun a ha hra hf key => ?_, hc.locked⟩
    · rcases ha with ha | rfl
      · exact ha
      · exact absurd (hc.isLeaf.symm.trans hl) Bool.noConfusion
    · rw [hc.rootNode, hc.isLeaf]
    · have hroot := hne _ h.root_pointer.mem
      rw [hc.rootNode]
      exact ⟨(if_pos rfl).trans_le (if_neg hroot).ge, (if_neg hroot).trans_le (if_pos rfl).ge⟩
    · rw [hc.rootNode] at hra
      have ha := ha.resolve_right hra
      rw [hisLeaf a ha] at hf
      by_cases hsa : a = s.superroot
      · subst hsa
        have hlt := Heap.bucketID_lt key (hc.superNumChildren.symm ▸ Nat.one_pos)
        rw [hc.superNumChildren, Nat.lt_one_iff] at hlt
        rw [hlt, hc.superChild]
        rfl
      · obtain ⟨hsame, hmodel⟩ := hc.same a (h.mem_lt ha) hsa
        rw [hsame.child, Heap.bucketID, hsame.numChildren, hmodel]
        exact hread a ha hf key

end

end LearnedIndexFramework.Alexol
