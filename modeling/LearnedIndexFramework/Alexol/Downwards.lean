import LearnedIndexFramework.Alexol.Splits

/-! A data node that is split below a new model node, and the choice between the two splits. -/

namespace LearnedIndexFramework.Alexol

open Lib Function

variable {K α : Type}

section Split

variable {s s' s₁ : Index K} {T : Set Addr} {g g' : Places} {chain xs ys : List Addr} {c : Split K}
  {leaf p : Addr} {b b' n : ℕ} {key : K}

structure SplitBelow (s s' : Index K) (c : Split K) (leaf p b : ℕ) : Prop where
  frame : Frame s.toHeap s'.toHeap p
  fresh : s'.fresh = s.fresh + c.tree.nodes.length + 1
  isLeaf : ∀ k, k < c.tree.nodes.length → s'.isLeaf (s.fresh + k) = true
  level : ∀ k, k < c.tree.nodes.length → s'.level (s.fresh + k) = s.level leaf + 1
  localDepth : ∀ k, k < c.tree.nodes.length →
    s'.localDepth (s.fresh + k) = (c.tree.levels 0).getD k 0
  nodeIsLeaf : s'.isLeaf (s.fresh + c.tree.nodes.length) = false
  nodeLevel : s'.level (s.fresh + c.tree.nodes.length) = s.level leaf
  nodeLocalDepth : s'.localDepth (s.fresh + c.tree.nodes.length) = s.localDepth leaf
  nodeNumChildren : s'.numChildren (s.fresh + c.tree.nodes.length) = 2 ^ c.depth
  nodeChildren : ∀ i, i < 2 ^ c.depth → s'.children (s.fresh + c.tree.nodes.length) i =
    some (s.fresh + c.tree.slotOf c.depth i)
  children : s'.children p = fun i =>
    if s.startBucketID p leaf b ≤ i ∧ i < s.startBucketID p leaf b + s.repeats p leaf then
      some (s.fresh + c.tree.nodes.length)
    else s.children p i
  rootNode : s'.rootNode =
    if p = s.superroot then s.fresh + c.tree.nodes.length else s.rootNode
  superroot : s'.superroot = s.superroot
  scheduled : s'.scheduled = leaf :: s.scheduled
  locked : ∀ a, s'.locked a =
    if s.fresh ≤ a ∧ a < s.fresh + c.tree.nodes.length then false else s.locked a

theorem SplitBelow.child (hw : SplitBelow s s' c leaf p b) {i : ℕ} (hi : i < 2 ^ c.depth) :
    s'.child (s.fresh + c.tree.nodes.length) i = some (s.fresh + c.tree.slotOf c.depth i) := by
  rw [Heap.child, hw.nodeNumChildren, if_pos hi, hw.nodeChildren i hi]

theorem SplitBelow.isLeaf_iff (hw : SplitBelow s s' c leaf p b) {a : Addr} (hge : s.fresh ≤ a)
    (hlt : a < s'.fresh) : s'.isLeaf a = true ↔ a < s.fresh + c.tree.nodes.length := by
  rw [hw.fresh] at hlt
  constructor
  · intro hleaf
    refine lt_of_le_of_ne (Nat.lt_succ_iff.mp hlt) fun heq => ?_
    rw [heq, hw.nodeIsLeaf] at hleaf
    cases hleaf
  · intro hlt'
    have hleaf := hw.isLeaf (a - s.fresh) (Nat.sub_lt_left_of_lt_add hge hlt')
    rwa [Nat.add_sub_cancel' hge] at hleaf

theorem SplitBelow.eq_node (hw : SplitBelow s s' c leaf p b) {a : Addr} (hge : s.fresh ≤ a)
    (hlt : a < s'.fresh) (hf : s'.isLeaf a = false) : a = s.fresh + c.tree.nodes.length := by
  have hnot := mt (hw.isLeaf_iff hge hlt).mpr (Bool.eq_false_iff.mp hf)
  rw [hw.fresh] at hlt
  exact (Nat.lt_succ_iff.mp hlt).antisymm (not_lt.mp hnot)

theorem SplitBelow.fresh_le (hw : SplitBelow s s' c leaf p b) {i : ℕ} {d : Addr}
    (hi : s'.child (s.fresh + c.tree.nodes.length) i = some d) : s.fresh ≤ d := by
  have hlt := Heap.child_lt hi
  rw [hw.nodeNumChildren] at hlt
  rw [hw.child hlt, Option.some_inj] at hi
  exact hi ▸ Nat.le_add_right _ _

theorem SplitBelow.child_isSome (hw : SplitBelow s s' c leaf p b) (key : K) :
    (s'.child (s.fresh + c.tree.nodes.length)
      (s'.bucketID (s.fresh + c.tree.nodes.length) key)).isSome := by
  have hpos : 0 < s'.numChildren (s.fresh + c.tree.nodes.length) := by
    rw [hw.nodeNumChildren]
    exact Nat.two_pow_pos _
  have hlt := Heap.bucketID_lt key hpos
  rw [hw.nodeNumChildren] at hlt
  rw [hw.child hlt]
  rfl

theorem Layout.splitBelow (h : Layout s T g (xs ++ leaf :: ys)) (hread : Readable s.toHeap T)
    (hlocked : ∀ a ∈ xs ++ leaf :: ys, a ≠ leaf → s.locked a = false)
    (hp : Layout.IsParent s T leaf p b) (hw : SplitBelow s s' c leaf p b)
    (hlinked : Linked s'.nextLeaf s'.prevLeaf none
      (xs ++ (List.range' s.fresh c.tree.nodes.length ++ ys)) none) : Valid s' := by
  have hptr := h.pointer hp.mem hp.isLeaf hp.child
  have hplt := h.mem_lt hp.mem
  have hlt := h.mem_lt hptr.mem
  have hlohi := h.lo_le_hi leaf
  have hnpos := c.tree.nodes_length_pos
  obtain ⟨block, hblock⟩ := c.tree.exists_blocks c.height_le (dvd_zero (2 ^ c.depth))
  let new := splitPlaces g s.fresh c.tree.nodes.length leaf (s.fresh + c.tree.nodes.length) p block
    (b / s.repeats p leaf)
  have hs : g.Spread (g.extend c.tree.nodes.length s.fresh leaf leaf new) c.tree.nodes.length
      s.fresh leaf := Places.extend_spread (Int.natCast_pos.mpr hnpos)
  have hmul := Int.mul_le_mul_of_nonneg_left hlohi hs.pos.le
  have hnode : ¬s.fresh + c.tree.nodes.length < s.fresh := not_lt.mpr (Nat.le_add_right _ _)
  have hnodeLo : (g.extend c.tree.nodes.length s.fresh leaf leaf new).lo
      (s.fresh + c.tree.nodes.length) = c.tree.nodes.length * g.lo leaf :=
    (if_neg hnode).trans (if_neg (lt_irrefl _))
  have hnodeHi : (g.extend c.tree.nodes.length s.fresh leaf leaf new).hi
      (s.fresh + c.tree.nodes.length) =
        c.tree.nodes.length * g.hi leaf + (c.tree.nodes.length - 1) :=
    (if_neg hnode).trans (if_neg (lt_irrefl _))
  have hnodes : SplitNodes s'.toHeap (g.extend c.tree.nodes.length s.fresh leaf leaf new) c.tree
      (s.fresh + c.tree.nodes.length) s.fresh 0 c.depth 0 (c.tree.nodes.length * g.lo leaf) := by
    refine .of_splitPlaces c.height_le ?_ (fun i _ hi => ?_) (fun k hk => ?_) (fun k hk => ?_)
      hblock
    · rw [hw.nodeNumChildren, Nat.log2_two_pow, Nat.zero_add]
    · rw [Nat.zero_add] at hi
      exact hw.nodeChildren i hi
    · rw [hw.level k hk, hw.nodeLevel]
    · rw [hw.localDepth k hk, Nat.zero_add]
  have hslots : Slots s.toHeap s'.toHeap {a | s.fresh ≤ a ∧ a < s'.fresh}
      (g.extend c.tree.nodes.length s.fresh leaf leaf new) leaf p b := by
    refine Slots.single hw.children ?_ (hw.frame.numChildren p hplt) hw.nodeLocalDepth hptr.depth ?_
      ((if_neg hnode).trans (if_neg (lt_irrefl _))) ((if_neg hnode).trans (if_neg (lt_irrefl _)))
      ?_ ?_
    · rw [hw.fresh]
      exact ⟨Nat.le_add_right _ _, Nat.lt_succ_self _⟩
    · rw [hw.frame.level p hplt, hw.nodeLevel]
      exact hptr.level
    · rw [hs.lo leaf hlt, hnodeLo]
    · rw [hs.hi leaf hlt, hnodeHi]
  have hchild : s'.child p b = some (s.fresh + c.tree.nodes.length) := by
    rw [Heap.child, hw.frame.numChildren p hplt, if_pos (Heap.child_lt hp.child), hw.children]
    exact if_pos ((mem_block_iff (s.repeats_pos p leaf)).mpr rfl)
  obtain ⟨hroot, hlevel⟩ := h.graft_root hp hw.frame hw.rootNode hchild hw.nodeLevel
  refine h.split hread hlocked hp hw.frame hs hslots ?_ (fun a => hw.isLeaf_iff)
    (fun a hge hlt' hf => ?_) (Places.extend_lo_le_hi hs.pos h.lo_le_hi fun a _ =>
      splitPlaces_lo_le_hi hnpos hlohi a) hnodes.lo hnodes.hi hw.superroot hroot hlevel hlinked
    hw.scheduled hw.locked
  · rw [hw.fresh]
    exact Nat.le_succ _
  · rw [hw.eq_node hge hlt' hf]
    refine ⟨hnodes.nodeOk hw.nodeNumChildren (fun k hk => ?_) hnodeLo.le ?_, fun i hi => ?_,
      fun key => ?_⟩
    · refine .inr ⟨Nat.le_add_right _ _, ?_⟩
      rw [hw.fresh]
      exact Nat.lt_succ_of_lt (Nat.add_lt_add_left hk _)
    · rw [hnodeHi]
      exact Int.add_le_add_right hmul _
    · exact absurd (h.mem_lt h.superroot_mem) (not_lt.mpr (hw.fresh_le hi))
    · exact hw.child_isSome key

theorem Heap.startBucketID_congr (h : Heap K) (hb : b / h.repeats p leaf = b' / h.repeats p leaf) :
    h.startBucketID p leaf b = h.startBucketID p leaf b' := by
  rw [startBucketID_eq, startBucketID_eq, hb]

def Heap.splitNodes (h : Heap K) (c : Split K) (leaf : Addr) : Heap K :=
  (h.createNewDataNodes c.tree.nodes.length (h.level leaf + 1)
    (fun i => (c.tree.levels 0).getD i 0) c.limits).newModelNode (h.localDepth leaf) (h.level leaf)
      c.model (2 ^ c.depth) (placeNodes c.depth 0 (List.range' h.fresh c.tree.nodes.length)
        (c.tree.levels 0) 0 fun _ => none)

section SplitNodes

variable {h : Heap K}

theorem Index.splitDownwards_eq : s.splitDownwards c leaf p b =
    ({ s with toHeap := s.splitNodes c leaf }.replaceChild p b leaf
      (s.fresh + c.tree.nodes.length)).finishSplit leaf s.fresh c.tree.nodes.length := by
  rw [Index.splitDownwards]
  simp only [c.tree.length_levels 0]
  rfl

theorem Heap.splitNodes_frame : Frame h (h.splitNodes c leaf) h.fresh := by
  have hold : ∀ a, a < h.fresh → ¬(h.fresh ≤ a ∧ a < h.fresh + c.tree.nodes.length) :=
    fun a ha hand => absurd hand.1 (not_le.mpr ha)
  have hold' : ∀ a, a < h.fresh → a ≠ h.fresh + c.tree.nodes.length :=
    fun a ha => (ha.trans_le (Nat.le_add_right _ _)).ne
  refine ⟨Nat.le_succ_of_le (Nat.le_add_right _ _), fun a ha => ?_, fun a ha => ?_,
    fun a ha => ?_, fun a ha => ?_, fun a ha => ?_, fun a ha _ => ?_⟩
  · exact (update_of_ne (hold' a ha) _ _).trans (if_neg (hold a ha))
  · exact (update_of_ne (hold' a ha) _ _).trans (if_neg (hold a ha))
  · exact (update_of_ne (hold' a ha) _ _).trans (if_neg (hold a ha))
  · exact update_of_ne (hold' a ha) _ _
  · exact update_of_ne (hold' a ha) _ _
  · exact update_of_ne (hold' a ha) _ _

theorem Heap.splitNodes_new {k : ℕ} (hk : k < c.tree.nodes.length) :
    (h.splitNodes c leaf).isLeaf (h.fresh + k) = true ∧
      (h.splitNodes c leaf).level (h.fresh + k) = h.level leaf + 1 ∧
      (h.splitNodes c leaf).localDepth (h.fresh + k) = (c.tree.levels 0).getD k 0 := by
  have hin : h.fresh ≤ h.fresh + k ∧ h.fresh + k < h.fresh + c.tree.nodes.length :=
    ⟨Nat.le_add_right _ _, Nat.add_lt_add_left hk _⟩
  have hne := hin.2.ne
  refine ⟨(update_of_ne hne _ _).trans (if_pos hin), (update_of_ne hne _ _).trans (if_pos hin), ?_⟩
  refine ((update_of_ne hne _ _).trans (if_pos hin)).trans ?_
  rw [Nat.add_sub_cancel_left]

theorem Heap.splitNodes_children {i : ℕ} (hi : i < 2 ^ c.depth) :
    (h.splitNodes c leaf).children (h.fresh + c.tree.nodes.length) i =
      some (h.fresh + c.tree.slotOf c.depth i) := by
  refine (congrFun (update_self _ _ _) i).trans ?_
  rw [c.tree.placeNodes_eq _ List.length_range' ((Nat.zero_add _).trans_le c.height_le),
    Nat.sub_zero, Nat.sub_zero, Nat.zero_add, if_pos ⟨Nat.zero_le i, hi⟩,
    List.getElem?_range' (c.tree.slotOf_lt _ _), Nat.one_mul]

end SplitNodes

theorem Layout.replaceChild_splitNodes (h : Layout s T g chain) (hp : Layout.IsParent s T leaf p b')
    (hb : b / s.repeats p leaf = b' / s.repeats p leaf) :
    { s with toHeap := s.splitNodes c leaf }.replaceChild p b leaf
        (s.fresh + c.tree.nodes.length) =
      { s with
        toHeap := (s.splitNodes c leaf).setChildren p (s.startBucketID p leaf b')
          (s.repeats p leaf) (s.fresh + c.tree.nodes.length)
        rootNode := if p = s.superroot then s.fresh + c.tree.nodes.length else s.rootNode } := by
  have hplt := h.mem_lt hp.mem
  have hlt := h.mem_lt (h.pointer hp.mem hp.isLeaf hp.child).mem
  have hframe : Frame s.toHeap (s.splitNodes c leaf) s.fresh := Heap.splitNodes_frame
  have hrepeats : (s.splitNodes c leaf).repeats p leaf = s.repeats p leaf := hframe.repeats hplt hlt
  have hstart : (s.splitNodes c leaf).startBucketID p leaf b' = s.startBucketID p leaf b' := by
    rw [Heap.startBucketID, Heap.startBucketID, hrepeats]
  have hlevel : (s.splitNodes c leaf).level (s.fresh + c.tree.nodes.length) = s.level leaf :=
    update_self _ _ _
  have hsuper : p = s.superroot → b' = 0 ∧ (s.splitNodes c leaf).level s.superroot =
      (s.splitNodes c leaf).level (s.fresh + c.tree.nodes.length) - 1 := by
    intro hps
    obtain ⟨hroot, hb'⟩ := hp.eq_root h hps
    refine ⟨hb', ?_⟩
    rw [hlevel, hframe.level _ (h.mem_lt h.superroot_mem), h.superroot_level, hroot]
  have heq := Index.replaceChild_eq { s with toHeap := s.splitNodes c leaf } p b' leaf
    (s.fresh + c.tree.nodes.length) hsuper
  simp only [hstart, hrepeats] at heq
  rw [← heq, Index.replaceChild, Index.replaceChild, Heap.startBucketID_congr _
    (show b / (s.splitNodes c leaf).repeats p leaf = b' / _ by rw [hrepeats, hb])]

theorem Layout.splitDownwards (h : Layout s T g chain) (hread : Readable s.toHeap T)
    (hleaf : leaf ∈ chain) (hlocked : ∀ a ∈ chain, a ≠ leaf → s.locked a = false)
    (hp : Layout.IsParent s T leaf p b') (hb : b / s.repeats p leaf = b' / s.repeats p leaf) :
    Valid (s.splitDownwards c leaf p b) := by
  obtain ⟨xs, ys, rfl⟩ := List.append_of_mem hleaf
  have hplt := h.mem_lt hp.mem
  have hnode : s.fresh + c.tree.nodes.length ≠ p := (hplt.trans_le (Nat.le_add_right _ _)).ne'
  have hframe : Frame s.toHeap (s.splitNodes c leaf) s.fresh := Heap.splitNodes_frame
  rw [Index.splitDownwards_eq, h.replaceChild_splitNodes hp hb]
  generalize hs₁ : ({ s with toHeap := _, rootNode := _ } : Index K) = s₁
  obtain ⟨next, prev, hs', hlinked⟩ := h.finishSplit c.tree.nodes_length_pos
    (show s₁.nextLeaf = _ by rw [← hs₁]; rfl) (show s₁.prevLeaf = _ by rw [← hs₁]; rfl)
  generalize s₁.finishSplit leaf s.fresh c.tree.nodes.length = s' at hs' ⊢
  have hchildren : s'.children = update (s.splitNodes c leaf).children p fun i =>
      if s.startBucketID p leaf b' ≤ i ∧ i < s.startBucketID p leaf b' + s.repeats p leaf then
        some (s.fresh + c.tree.nodes.length)
      else s.children p i := by
    rw [← hframe.children p hplt hplt.ne, hs', ← hs₁]
    rfl
  have hframe' : Frame s.toHeap s'.toHeap p := by
    refine ⟨?fresh, ?isLeaf, ?localDepth, ?level, ?model, ?numChildren, fun a ha hap => ?children⟩
    case children => rw [hchildren, update_of_ne hap, hframe.children a ha ha.ne]
    all_goals subst hs' hs₁
    case fresh => exact hframe.fresh
    case isLeaf => exact hframe.isLeaf
    case localDepth => exact hframe.localDepth
    case level => exact hframe.level
    case model => exact hframe.model
    case numChildren => exact hframe.numChildren
  have hnodeChildren : ∀ i, i < 2 ^ c.depth → s'.children (s.fresh + c.tree.nodes.length) i =
      some (s.fresh + c.tree.slotOf c.depth i) := by
    intro i hi
    rw [hchildren, update_of_ne hnode, Heap.splitNodes_children hi]
  have hparent := (congrFun hchildren p).trans (update_self _ _ _)
  subst hs' hs₁
  refine h.splitBelow hread hlocked hp ?_ hlinked
  exact {
    frame := hframe'
    fresh := rfl
    isLeaf _ hk := (Heap.splitNodes_new hk).1
    level _ hk := (Heap.splitNodes_new hk).2.1
    localDepth _ hk := (Heap.splitNodes_new hk).2.2
    nodeIsLeaf := update_self _ _ _
    nodeLevel := update_self _ _ _
    nodeLocalDepth := update_self _ _ _
    nodeNumChildren := update_self _ _ _
    nodeChildren := hnodeChildren
    children := hparent
    rootNode := rfl
    superroot := rfl
    scheduled := rfl
    locked a := by
      by_cases hrange : s.fresh ≤ a ∧ a < s.fresh + c.tree.nodes.length
      · rw [if_pos hrange]
        exact if_pos hrange
      · rw [if_neg hrange]
        exact (if_neg hrange).trans (if_neg hrange) }

theorem log2_mul_two_pow {n e k : ℕ} (hn : n = 2 ^ k) :
    Nat.log2 (n * 2 ^ e) = Nat.log2 n + e := by
  rw [hn, ← Nat.pow_add, Nat.log2_two_pow, Nat.log2_two_pow]

theorem Layout.expandAndSplit (h : Layout s T g chain) (hread : Readable s.toHeap T)
    (hleaf : leaf ∈ chain) (hlocked : ∀ a ∈ chain, a ≠ leaf → s.locked a = false)
    (hp : Layout.IsParent s T leaf p b') (hb : b / s.repeats p leaf = b' / s.repeats p leaf)
    (hwide : s.repeats p leaf < 2 ^ c.depth)
    (hcall : s.expandNode c key p
      (c.depth - (Nat.log2 (s.numChildren p) - s.localDepth leaf)) = .ok s₁) :
    Valid (s₁.splitInParent c leaf s.fresh
      (b * 2 ^ (c.depth - (Nat.log2 (s.numChildren p) - s.localDepth leaf)))) := by
  have hptr := h.pointer hp.mem hp.isLeaf hp.child
  have hlt := h.mem_lt hptr.mem
  have hdepth := hptr.depth
  have hheight := c.height_le
  have hlt₂ : Nat.log2 (s.numChildren p) - s.localDepth leaf < c.depth :=
    (Nat.pow_lt_pow_iff_right Nat.one_lt_two).mp hwide
  obtain ⟨k, hk⟩ := (h.node p hp.mem hp.isLeaf).size
  obtain ⟨g₁, h₁, hread₁, hw, hlocal⟩ := h.expandNode hread hp.mem hp.isLeaf hcall
  generalize he : c.depth - (Nat.log2 (s.numChildren p) - s.localDepth leaf) = e at hcall hw ⊢
  have hlog : Nat.log2 (s₁.numChildren s.fresh) = Nat.log2 (s.numChildren p) + e := by
    rw [hw.numChildren, log2_mul_two_pow hk]
  have hrepeats : s₁.repeats s.fresh leaf = s.repeats p leaf * 2 ^ e := by
    rw [Heap.repeats, hlog, hlocal leaf hlt, Heap.repeats, ← Nat.pow_add]
    congr 1
    omega
  have hpos := Nat.two_pow_pos e
  have hp₁ : Layout.IsParent s₁ (T \ {p} ∪ {s.fresh}) leaf s.fresh (b' * 2 ^ e) := by
    refine ⟨.inr rfl, hw.isLeaf, ?_⟩
    rw [hw.child, Nat.mul_div_cancel _ hpos]
    exact hp.child
  refine h₁.splitInParent hread₁ hleaf (fun a ha hne => ?_) hp₁ ?_ ?_ ?_
  · rw [hw.locked]
    exact hlocked a ha hne
  · rw [hrepeats, Nat.mul_div_mul_right _ _ hpos, Nat.mul_div_mul_right _ _ hpos, hb]
  · -- the superroot has one child, a wider node has more
    intro heq
    have hone := h₁.superroot_numChildren
    rw [← heq, hw.numChildren] at hone
    have hzero : e ≠ 0 := by omega
    exact (Nat.one_lt_two_pow hzero).ne' (Nat.eq_one_of_mul_eq_one_left hone)
  · rw [hlog, hlocal leaf hlt]
    omega

theorem Layout.splitSidewaysDownwardsWithoutParent (h : Layout s T g chain)
    (hread : Readable s.toHeap T) (hleaf : leaf ∈ chain)
    (hlocked : ∀ a ∈ chain, a ≠ leaf → s.locked a = false)
    (hbucket : ∀ p b, s.lockParentNode key leaf = some (p, b) →
      s.bucketID p key / s.repeats p leaf = b / s.repeats p leaf)
    (hcall : s.splitSidewaysDownwardsWithoutParent c key leaf = .ok s') : Valid s' := by
  obtain ⟨⟨p, b⟩, hlock, hcall⟩ := bind_eq_ok.mp hcall
  rw [orStop_eq_ok] at hlock
  have hp := h.lockParentNode_isParent hlock
  have hb := hbucket p b hlock
  have hdepth := (h.pointer hp.mem hp.isLeaf hp.child).depth
  have hheight := c.height_le
  simp only at hcall
  split at hcall
  case isTrue =>
    cases hcall
    exact h.splitDownwards hread hleaf hlocked hp hb
  case isFalse hside =>
    have hps : p ≠ s.superroot := fun heq => hside (.inr (heq ▸ rfl))
    split at hcall
    case isTrue hwide =>
      obtain ⟨s₁, hexpand, hcall⟩ := bind_eq_ok.mp hcall
      cases hcall
      exact h.expandAndSplit hread hleaf hlocked hp hb hwide hexpand
    case isFalse hfits =>
      cases hcall
      have hle : c.depth ≤ Nat.log2 (s.numChildren p) - s.localDepth leaf :=
        (Nat.pow_le_pow_iff_right Nat.one_lt_two).mp (not_lt.mp hfits)
      exact h.splitInParent hread hleaf hlocked hp hb hps (by omega)

end Split

end LearnedIndexFramework.Alexol
