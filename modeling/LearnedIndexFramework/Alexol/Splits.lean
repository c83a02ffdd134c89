import LearnedIndexFramework.Alexol.Replace

/-! A data node that is split, sideways in its parent or downwards below a new model node. -/

namespace LearnedIndexFramework.Alexol

open Lib Function

variable {K α : Type}

theorem Fanout.exists_blocks (t : Fanout α) {m start : ℕ} (ht : t.height ≤ m)
    (hstart : 2 ^ m ∣ start) :
    ∃ block : ℕ → ℕ, ∀ i, start ≤ i → i < start + 2 ^ m →
      i / 2 ^ (m - (t.levels 0).getD (t.slotOf m (i - start)) 0) =
        block (t.slotOf m (i - start)) := by
  classical
  refine ⟨fun k => if h : ∃ i, (start ≤ i ∧ i < start + 2 ^ m) ∧ t.slotOf m (i - start) = k then
    h.choose / 2 ^ (m - (t.levels 0).getD k 0) else 0, fun i hi hi' => ?_⟩
  have hex : ∃ j, (start ≤ j ∧ j < start + 2 ^ m) ∧
      t.slotOf m (j - start) = t.slotOf m (i - start) := ⟨i, ⟨hi, hi'⟩, rfl⟩
  obtain ⟨⟨hj, hj'⟩, hsame⟩ := hex.choose_spec
  have hblock := t.slotOf_block m 0 (by omega) hstart hi hi' hj hj' hsame.symm
  rw [Nat.sub_zero] at hblock
  simp only [hblock, dif_pos hex]

structure SplitNodes (h : Heap K) (g : Places) (t : Fanout Unit) (node first start m base : ℕ)
    (pos : ℤ) : Prop where
  height : t.height ≤ m
  depth : base + m = Nat.log2 (h.numChildren node)
  children : ∀ i, start ≤ i → i < start + 2 ^ m →
    h.children node i = some (first + t.slotOf m (i - start))
  level : ∀ k, k < t.nodes.length → h.level (first + k) = h.level node + 1
  localDepth : ∀ k, k < t.nodes.length →
    h.localDepth (first + k) = base + (t.levels 0).getD k 0
  parent : ∀ k, k < t.nodes.length → g.parent (first + k) = node
  block : ∀ i, start ≤ i → i < start + 2 ^ m →
    i / 2 ^ (m - (t.levels 0).getD (t.slotOf m (i - start)) 0) =
      g.block (first + t.slotOf m (i - start))
  lo : ∀ k, k < t.nodes.length → g.lo (first + k) = pos + k
  hi : ∀ k, k < t.nodes.length → g.hi (first + k) = pos + k

namespace SplitNodes

variable {h : Heap K} {g : Places} {t : Fanout Unit} {node first start m base : ℕ} {pos : ℤ}
  {i j c d : ℕ}

theorem eq_of_child (hp : SplitNodes h g t node first start m base pos) (hi : start ≤ i)
    (hi' : i < start + 2 ^ m) (hchild : h.child node i = some c) :
    c = first + t.slotOf m (i - start) := by
  rw [Heap.child, if_pos (Heap.child_lt hchild), hp.children i hi hi'] at hchild
  exact (Option.some_inj.mp hchild).symm

theorem inSlot (hp : SplitNodes h g t node first start m base pos) {x : Addr} (hi : start ≤ i)
    (hi' : i < start + 2 ^ m) (hchild : h.child node i = some c) (hlo : g.lo x ≤ pos)
    (hhi : pos + (t.nodes.length - 1) ≤ g.hi x) : InSlot h g x node i c := by
  have hk := t.slotOf_lt m (i - start)
  have hle := t.levels_getD_le hp.height hk
  have hdepth := hp.depth
  rw [hp.eq_of_child hi hi' hchild]
  refine ⟨?_, ?_, hp.parent _ hk, ?_, ?_, ?_⟩
  · rw [hp.level _ hk]
    exact lt_add_one _
  · rw [hp.localDepth _ hk]
    omega
  · rw [Heap.repeats, hp.localDepth _ hk, ← hp.block i hi hi']
    congr 2
    omega
  · rw [hp.lo _ hk]
    omega
  · rw [hp.hi _ hk]
    omega

theorem order (hp : SplitNodes h g t node first start m base pos) (hi : start ≤ i)
    (hi' : i < start + 2 ^ m) (hj : start ≤ j) (hj' : j < start + 2 ^ m) (hij : i < j)
    (hc : h.child node i = some c) (hd : h.child node j = some d) (hcd : c ≠ d) :
    g.hi c < g.lo d := by
  have hmono := t.slotOf_mono m (show i - start ≤ j - start by omega)
  rw [hp.eq_of_child hi hi' hc, hp.eq_of_child hj hj' hd] at hcd ⊢
  rw [hp.hi _ (t.slotOf_lt _ _), hp.lo _ (t.slotOf_lt _ _)]
  omega

theorem slots {h₀ : Heap K} {N : Set Addr} {x : Addr} {b : ℕ}
    (hp : SplitNodes h g t node first (h₀.startBucketID node x b) m base pos)
    (hr : h₀.repeats node x = 2 ^ m)
    (hout : ∀ i, i / h₀.repeats node x ≠ b / h₀.repeats node x →
      h.children node i = h₀.children node i)
    (hN : ∀ k, k < t.nodes.length → first + k ∈ N) (hlo : g.lo x ≤ pos)
    (hhi : pos + (t.nodes.length - 1) ≤ g.hi x) : Slots h₀ h N g x node b := by
  have hblock : ∀ i, i / h₀.repeats node x = b / h₀.repeats node x →
      h₀.startBucketID node x b ≤ i ∧ i < h₀.startBucketID node x b + 2 ^ m := by
    intro i hi
    rw [← hr]
    exact (mem_block_iff (h₀.repeats_pos node x)).mpr hi
  refine ⟨hout, fun i hi => ?_, fun i c hi hchild => ?_, fun i j c d hi hj hij hc hd hcd => ?_⟩
  · exact ⟨_, hN _ (t.slotOf_lt m _), hp.children i (hblock i hi).1 (hblock i hi).2⟩
  · exact hp.inSlot (hblock i hi).1 (hblock i hi).2 hchild hlo hhi
  · exact hp.order (hblock i hi).1 (hblock i hi).2 (hblock j hj).1 (hblock j hj).2 hij hc hd hcd

theorem nodeOk {T : Set Addr} (hp : SplitNodes h g t node first 0 m 0 pos)
    (hnum : h.numChildren node = 2 ^ m) (hT : ∀ k, k < t.nodes.length → first + k ∈ T)
    (hlo : g.lo node ≤ pos) (hhi : pos + (t.nodes.length - 1) ≤ g.hi node) :
    NodeOk h T g node := by
  have hlt : ∀ i c, h.child node i = some c → i < 0 + 2 ^ m := by
    intro i c hchild
    rw [Nat.zero_add, ← hnum]
    exact Heap.child_lt hchild
  refine ⟨⟨m, hnum⟩, fun i c hchild => ?_, fun i j c d hij hi hj hcd => ?_⟩
  · have hslot := hp.inSlot (Nat.zero_le i) (hlt i c hchild) hchild hlo hhi
    have hmem := hT _ (t.slotOf_lt m (i - 0))
    rw [← hp.eq_of_child (Nat.zero_le i) (hlt i c hchild) hchild] at hmem
    exact ⟨hmem, hslot.level, hslot.depth, hslot.parent, hslot.block, hslot.lo, hslot.hi⟩
  · exact hp.order (Nat.zero_le i) (hlt i c hi) (Nat.zero_le j) (hlt j d hj) hij hi hj hcd

end SplitNodes

section Split

variable {s s' s₁ : Index K} {T : Set Addr} {g g' : Places} {chain xs ys : List Addr} {c : Split K}
  {leaf p : Addr} {b b' n : ℕ}

theorem Heap.startBucketID_eq (h : Heap K) (p x : Addr) (b : ℕ) :
    h.startBucketID p x b = b / h.repeats p x * h.repeats p x := by
  have hmod := Nat.div_add_mod b (h.repeats p x)
  rw [startBucketID, Nat.mul_comm]
  omega

theorem Heap.repeats_dvd_start (h : Heap K) (p x : Addr) (b : ℕ) :
    h.repeats p x ∣ h.startBucketID p x b := by
  rw [h.startBucketID_eq]
  exact Nat.dvd_mul_left _ _

theorem Layout.finishSplit (h : Layout s T g (xs ++ leaf :: ys)) (hn : 0 < n)
    (hnext : s₁.nextLeaf = fun a => if s.fresh ≤ a ∧ a < s.fresh + n then
      if a + 1 < s.fresh + n then some (a + 1) else none else s.nextLeaf a)
    (hprev : s₁.prevLeaf = fun a => if s.fresh ≤ a ∧ a < s.fresh + n then
      if s.fresh < a then some (a - 1) else none else s.prevLeaf a) :
    ∃ next prev, s₁.finishSplit leaf s.fresh n =
        { s₁ with
          nextLeaf := next
          prevLeaf := prev
          locked := fun a => if s.fresh ≤ a ∧ a < s.fresh + n then false else s₁.locked a
          scheduled := leaf :: s₁.scheduled } ∧
      Linked next prev none (xs ++ (List.range' s.fresh n ++ ys)) none := by
  have hold : ∀ a, a < s.fresh → ¬(s.fresh ≤ a ∧ a < s.fresh + n) :=
    fun a ha hand => absurd hand.1 (not_le.mpr ha)
  have hrange : Linked s₁.nextLeaf s₁.prevLeaf none (List.range' s.fresh n) none := by
    refine linked_range (fun i hi hlt => ?_) fun i hi hlt => ?_
    · exact (congrFun hnext i).trans (if_pos ⟨hi, hlt⟩)
    · exact (congrFun hprev i).trans (if_pos ⟨hi, hlt⟩)
  obtain ⟨next, prev, hlink, hlinked⟩ := h.splice s₁.toHeap (List.range' s.fresh n) s.fresh
    (s.fresh + n - 1) (fun a ha => (congrFun hnext a).trans (if_neg (hold a ha)))
    (fun a ha => (congrFun hprev a).trans (if_neg (hold a ha))) hrange List.nodup_range'
    (by rw [List.head?_range', if_neg hn.ne']) (by rw [List.getLast?_range', if_neg hn.ne'])
    (fun a ha => (List.mem_range'_1.mp ha).1) (fun _ => rfl) (fun _ => rfl)
  refine ⟨next, prev, ?_, hlinked⟩
  rw [Index.finishSplit, hlink]
  rfl

theorem Layout.split (h : Layout s T g (xs ++ leaf :: ys)) (hread : Readable s.toHeap T)
    (hlocked : ∀ a ∈ xs ++ leaf :: ys, a ≠ leaf → s.locked a = false)
    (hp : Layout.IsParent s T leaf p b) (f : Frame s.toHeap s'.toHeap p)
    (hs : g.Spread g' n s.fresh leaf)
    (hslots : Slots s.toHeap s'.toHeap {a | s.fresh ≤ a ∧ a < s'.fresh} g' leaf p b)
    (hn : s.fresh + n ≤ s'.fresh)
    (hisLeaf : ∀ a, s.fresh ≤ a → a < s'.fresh → (s'.isLeaf a = true ↔ a < s.fresh + n))
    (hnew : ∀ a, s.fresh ≤ a → a < s'.fresh → s'.isLeaf a = false →
      NodeOk s'.toHeap (T \ {leaf} ∪ {a | s.fresh ≤ a ∧ a < s'.fresh}) g' a ∧
        (∀ i, s'.child a i ≠ some s.superroot) ∧ ∀ key, (s'.child a (s'.bucketID a key)).isSome)
    (hlohi : ∀ a, g'.lo a ≤ g'.hi a)
    (hlo : ∀ k, k < n → g'.lo (s.fresh + k) = n * g.lo leaf + k)
    (hhi : ∀ k, k < n → g'.hi (s.fresh + k) = n * g.lo leaf + k)
    (hsuper : s'.superroot = s.superroot)
    (hroot : s'.child s.superroot 0 = some s'.rootNode)
    (hlevel : s'.level s.superroot = s'.level s'.rootNode - 1)
    (hlinked : Linked s'.nextLeaf s'.prevLeaf none (xs ++ (List.range' s.fresh n ++ ys)) none)
    (hscheduled : s'.scheduled = leaf :: s.scheduled)
    (hlocked' : ∀ a, s'.locked a =
      if s.fresh ≤ a ∧ a < s.fresh + n then false else s.locked a) : Valid s' := by
  have hlt := h.mem_lt (h.pointer hp.mem hp.isLeaf hp.child).mem
  have hpos : ∀ a ∈ List.range' s.fresh n, g'.lo a = n * g.lo leaf + (a - s.fresh : ℕ) ∧
      g'.hi a = n * g.lo leaf + (a - s.fresh : ℕ) ∧ a - s.fresh < n ∧ s.fresh ≤ a := by
    intro a ha
    obtain ⟨hge, hlt⟩ := List.mem_range'_1.mp ha
    have hk : a - s.fresh < n := Nat.sub_lt_left_of_lt_add hge hlt
    have hlo' := hlo _ hk
    have hhi' := hhi _ hk
    rw [Nat.add_sub_cancel' hge] at hlo' hhi'
    exact ⟨hlo', hhi', hk, hge⟩
  refine ⟨_, g', _, h.graft_leaf hp f hs hslots (fun a ha => ha)
    (fun a ha hf => (hnew a ha.1 ha.2 hf).1) hlohi hsuper hroot hlevel
    (fun a ha hf => (hnew a ha.1 ha.2 hf).2.1) hlinked hscheduled ?_ ?_ ?_ ?_,
    hread.graft h f hslots (fun a ha hf => (hnew a ha.1 ha.2 hf).2.2), ?_⟩
  · intro a ha
    obtain ⟨hge, hlt⟩ := List.mem_range'_1.mp ha
    exact ⟨⟨hge, hlt.trans_le hn⟩, (hisLeaf a hge (hlt.trans_le hn)).mpr hlt⟩
  · rintro a ⟨hge, hlt⟩ hleaf
    exact List.mem_range'_1.mpr ⟨hge, (hisLeaf a hge hlt).mp hleaf⟩
  · refine (List.pairwise_lt_range' 1 Nat.one_pos).imp_of_mem fun {a b} ha hb hab => ?_
    obtain ⟨-, ha, -, hge⟩ := hpos a ha
    obtain ⟨hb, -⟩ := hpos b hb
    rw [ha, hb]
    have hsub := Nat.sub_lt_sub_right hge hab
    omega
  · intro a ha
    obtain ⟨hlo', hhi', hk, -⟩ := hpos a ha
    have hmul := Int.mul_le_mul_of_nonneg_left (h.lo_le_hi leaf) hs.pos.le
    rw [hs.lo leaf hlt, hs.hi leaf hlt, hlo', hhi']
    omega
  · intro a ha
    rw [hlocked']
    by_cases hns : a ∈ List.range' s.fresh n
    case pos => rw [if_pos (List.mem_range'_1.mp hns)]
    case neg =>
      obtain ⟨hmem, hne⟩ := h.mem_spliced ha hns
      rw [if_neg (mt List.mem_range'_1.mpr hns)]
      exact hlocked a hmem hne

def splitPlaces (g : Places) (first n leaf node parent : ℕ) (blocks : ℕ → ℕ) (block : ℕ) :
    Places where
  parent a := if a < first + n then node else parent
  block a := if a < first + n then blocks (a - first) else block
  lo a := if a < first + n then n * g.lo leaf + (a - first : ℕ) else n * g.lo leaf
  hi a := if a < first + n then n * g.lo leaf + (a - first : ℕ) else n * g.hi leaf + (n - 1)

theorem splitPlaces_lo_le_hi {first node parent block : ℕ} {blocks : ℕ → ℕ} (hn : 0 < n)
    (hlohi : g.lo leaf ≤ g.hi leaf) (a : Addr) :
    (splitPlaces g first n leaf node parent blocks block).lo a ≤
      (splitPlaces g first n leaf node parent blocks block).hi a := by
  have hmul := Int.mul_le_mul_of_nonneg_left hlohi (Int.natCast_nonneg n)
  simp only [splitPlaces]
  split
  case isTrue => exact le_rfl
  case isFalse => omega

theorem SplitNodes.of_splitPlaces {h : Heap K} {t : Fanout Unit}
    {first node parent block start m base : ℕ} {blocks : ℕ → ℕ} (hheight : t.height ≤ m)
    (hdepth : base + m = Nat.log2 (h.numChildren node))
    (hchildren : ∀ i, start ≤ i → i < start + 2 ^ m →
      h.children node i = some (first + t.slotOf m (i - start)))
    (hlevel : ∀ k, k < t.nodes.length → h.level (first + k) = h.level node + 1)
    (hlocalDepth : ∀ k, k < t.nodes.length →
      h.localDepth (first + k) = base + (t.levels 0).getD k 0)
    (hblocks : ∀ i, start ≤ i → i < start + 2 ^ m →
      i / 2 ^ (m - (t.levels 0).getD (t.slotOf m (i - start)) 0) =
        blocks (t.slotOf m (i - start))) :
    SplitNodes h (g.extend t.nodes.length first leaf leaf
      (splitPlaces g first t.nodes.length leaf node parent blocks block)) t node first start m base
      (t.nodes.length * g.lo leaf) := by
  have hnew : ∀ k, ¬first + k < first := fun k => not_lt.mpr (Nat.le_add_right _ _)
  have hlt : ∀ k, k < t.nodes.length → first + k < first + t.nodes.length :=
    fun k hk => Nat.add_lt_add_left hk _
  refine ⟨hheight, hdepth, hchildren, hlevel, hlocalDepth, fun k hk => ?_, fun i hi hi' => ?_,
    fun k hk => ?_, fun k hk => ?_⟩
  · exact (if_neg (hnew k)).trans (if_pos (hlt k hk))
  · rw [hblocks i hi hi']
    refine .trans ?_ ((if_neg (hnew _)).trans (if_pos (hlt _ (t.slotOf_lt _ _)))).symm
    exact congrArg blocks (Nat.add_sub_cancel_left _ _).symm
  · refine ((if_neg (hnew k)).trans (if_pos (hlt k hk))).trans ?_
    rw [Nat.add_sub_cancel_left]
  · refine ((if_neg (hnew k)).trans (if_pos (hlt k hk))).trans ?_
    rw [Nat.add_sub_cancel_left]

structure SplitInside (s s' : Index K) (c : Split K) (leaf p b : ℕ) : Prop where
  frame : Frame s.toHeap s'.toHeap p
  fresh : s'.fresh = s.fresh + c.tree.nodes.length
  isLeaf : ∀ a, s.fresh ≤ a → a < s'.fresh → s'.isLeaf a = true
  level : ∀ k, k < c.tree.nodes.length → s'.level (s.fresh + k) = s.level p + 1
  localDepth : ∀ k, k < c.tree.nodes.length →
    s'.localDepth (s.fresh + k) = s.localDepth leaf + (c.tree.levels 0).getD k 0
  children : s'.children p = fun i =>
    if s.startBucketID p leaf b ≤ i ∧ i < s.startBucketID p leaf b + s.repeats p leaf then
      some (s.fresh + c.tree.slotOf (Nat.log2 (s.numChildren p) - s.localDepth leaf)
        (i - s.startBucketID p leaf b))
    else s.children p i
  rootNode : s'.rootNode = s.rootNode
  superroot : s'.superroot = s.superroot
  scheduled : s'.scheduled = leaf :: s.scheduled
  locked : ∀ a, s'.locked a =
    if s.fresh ≤ a ∧ a < s.fresh + c.tree.nodes.length then false else s.locked a

theorem Layout.splitInside (h : Layout s T g (xs ++ leaf :: ys)) (hread : Readable s.toHeap T)
    (hlocked : ∀ a ∈ xs ++ leaf :: ys, a ≠ leaf → s.locked a = false)
    (hp : Layout.IsParent s T leaf p b) (hps : p ≠ s.superroot)
    (hheight : s.localDepth leaf + c.tree.height ≤ Nat.log2 (s.numChildren p))
    (hw : SplitInside s s' c leaf p b)
    (hlinked : Linked s'.nextLeaf s'.prevLeaf none
      (xs ++ (List.range' s.fresh c.tree.nodes.length ++ ys)) none) : Valid s' := by
  have hptr := h.pointer hp.mem hp.isLeaf hp.child
  have hplt := h.mem_lt hp.mem
  have hlt := h.mem_lt hptr.mem
  have hsuper := h.mem_lt h.superroot_mem
  have hlohi := h.lo_le_hi leaf
  have hnpos := c.tree.nodes_length_pos
  have hr : s.repeats p leaf = 2 ^ (Nat.log2 (s.numChildren p) - s.localDepth leaf) := rfl
  obtain ⟨block, hblock⟩ := c.tree.exists_blocks
    (m := Nat.log2 (s.numChildren p) - s.localDepth leaf) (by omega)
    (s.repeats_dvd_start p leaf b)
  let new := splitPlaces g s.fresh c.tree.nodes.length leaf p p block 0
  have hs : g.Spread (g.extend c.tree.nodes.length s.fresh leaf leaf new) c.tree.nodes.length
      s.fresh leaf := Places.extend_spread (Int.natCast_pos.mpr hnpos)
  have hnodes : SplitNodes s'.toHeap (g.extend c.tree.nodes.length s.fresh leaf leaf new) c.tree p
      s.fresh (s.startBucketID p leaf b) (Nat.log2 (s.numChildren p) - s.localDepth leaf)
      (s.localDepth leaf) (c.tree.nodes.length * g.lo leaf) := by
    refine .of_splitPlaces (by omega) ?_ (fun i hi hi' => ?_) (fun k hk => ?_) hw.localDepth
      hblock
    · rw [hw.frame.numChildren p hplt]
      omega
    · rw [hw.children]
      exact if_pos ⟨hi, hi'⟩
    · rw [hw.frame.level p hplt]
      exact hw.level k hk
  have hslots : Slots s.toHeap s'.toHeap {a | s.fresh ≤ a ∧ a < s'.fresh}
      (g.extend c.tree.nodes.length s.fresh leaf leaf new) leaf p b := by
    refine hnodes.slots hr (fun i hi => ?_) (fun k hk => ?_) ?_ ?_
    · rw [hw.children]
      exact if_neg (mt (mem_block_iff (s.repeats_pos p leaf)).mp hi)
    · rw [hw.fresh]
      exact ⟨Nat.le_add_right _ _, Nat.add_lt_add_left hk _⟩
    · rw [hs.lo leaf hlt]
    · have hmul := Int.mul_le_mul_of_nonneg_left hlohi hs.pos.le
      rw [hs.hi leaf hlt]
      omega
  refine h.split hread hlocked hp hw.frame hs hslots hw.fresh.ge (fun a hge hlt => ?_)
    (fun a hge hlt hmodel => ?_) (Places.extend_lo_le_hi hs.pos h.lo_le_hi fun a _ =>
      splitPlaces_lo_le_hi hnpos hlohi a) hnodes.lo hnodes.hi hw.superroot ?_ ?_ hlinked
    hw.scheduled hw.locked
  · exact iff_of_true (hw.isLeaf a hge hlt) (hw.fresh ▸ hlt)
  · rw [hw.isLeaf a hge hlt] at hmodel
    cases hmodel
  · rw [hw.frame.child hsuper hps.symm, h.superroot_child, hw.rootNode]
  · rw [hw.rootNode, hw.frame.level _ hsuper, hw.frame.level _ (h.mem_lt h.root_pointer.mem)]
    exact h.superroot_level

theorem Layout.splitInParent (h : Layout s T g chain) (hread : Readable s.toHeap T)
    (hleaf : leaf ∈ chain) (hlocked : ∀ a ∈ chain, a ≠ leaf → s.locked a = false)
    (hp : Layout.IsParent s T leaf p b') (hb : b / s.repeats p leaf = b' / s.repeats p leaf)
    (hps : p ≠ s.superroot)
    (hheight : s.localDepth leaf + c.tree.height ≤ Nat.log2 (s.numChildren p)) :
    Valid (s.splitInParent c leaf p b) := by
  obtain ⟨xs, ys, rfl⟩ := List.append_of_mem hleaf
  have hlen := c.tree.length_levels 0
  have hstart : s.startBucketID p leaf b = s.startBucketID p leaf b' := by
    rw [Heap.startBucketID_eq, Heap.startBucketID_eq, hb]
  rw [Index.splitInParent, hstart]
  generalize hs₁ : ({ s with toHeap := _ } : Index K) = s₁
  obtain ⟨next, prev, hs', hlinked⟩ := h.finishSplit (n := (c.tree.levels 0).length)
    (hlen ▸ c.tree.nodes_length_pos) (show s₁.nextLeaf = _ by rw [← hs₁]; rfl)
    (show s₁.prevLeaf = _ by rw [← hs₁]; rfl)
  generalize s₁.finishSplit leaf s.fresh (c.tree.levels 0).length = s' at hs' ⊢
  subst hs₁
  have hold : ∀ a, a < s.fresh → ¬(s.fresh ≤ a ∧ a < s.fresh + (c.tree.levels 0).length) :=
    fun a ha hand => absurd hand.1 (not_le.mpr ha)
  have hin : ∀ k, k < c.tree.nodes.length →
      s.fresh ≤ s.fresh + k ∧ s.fresh + k < s.fresh + (c.tree.levels 0).length :=
    fun k hk => ⟨Nat.le_add_right _ _, Nat.add_lt_add_left (hlen ▸ hk) _⟩
  have hchildren : s'.children p = placeNodes (Nat.log2 (s.numChildren p)) (s.localDepth leaf)
      (List.range' s.fresh (c.tree.levels 0).length) (c.tree.levels 0)
      (s.startBucketID p leaf b') (s.children p) := by
    rw [hs']
    exact update_self _ _ _
  have hfresh : s'.fresh = s.fresh + c.tree.nodes.length := by
    rw [hs', ← hlen]
    rfl
  have hinside : SplitInside s s' c leaf p b' := by
    refine ⟨?_, hfresh, fun a hge hlt => ?_, fun k hk => ?_, fun k hk => ?_, ?_, ?_, ?_, ?_,
      fun a => ?_⟩
    · subst hs'
      exact ⟨Nat.le_add_right _ _, fun a ha => if_neg (hold a ha), fun a ha => if_neg (hold a ha),
        fun a ha => if_neg (hold a ha), fun _ _ => rfl, fun _ _ => rfl,
        fun a _ ha => update_of_ne ha _ _⟩
    · rw [hfresh, ← hlen] at hlt
      rw [hs']
      exact if_pos ⟨hge, hlt⟩
    · rw [hs']
      exact if_pos (hin k hk)
    · rw [hs']
      refine (if_pos (hin k hk)).trans ?_
      rw [Nat.add_sub_cancel_left]
    · funext i
      rw [hchildren, c.tree.placeNodes_eq _ (by rw [List.length_range', hlen]) hheight,
        List.getElem?_range' (hlen ▸ c.tree.slotOf_lt _ _), Nat.one_mul]
      rfl
    · rw [hs']
    · rw [hs']
    · rw [hs']
    · rw [hs', ← hlen]
      by_cases hrange : s.fresh ≤ a ∧ a < s.fresh + (c.tree.levels 0).length
      · rw [if_pos hrange]
        exact if_pos hrange
      · rw [if_neg hrange]
        exact (if_neg hrange).trans (if_neg hrange)
  rw [hlen] at hlinked
  refine h.splitInside hread hlocked hp hps hheight hinside ?_
  rw [hs']
  exact hlinked

end Split

end LearnedIndexFramework.Alexol
