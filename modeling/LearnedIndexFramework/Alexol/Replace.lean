import LearnedIndexFramework.Alexol.Graft
import Mathlib.Algebra.Order.Floor.Semifield
import Mathlib.Data.Rat.Floor

/-! A data node that is replaced, and a model node that is expanded. -/

namespace LearnedIndexFramework.Alexol

open Lib Function

variable {K : Type}

section Link

variable {xs ys : List Addr} {old : Addr}

theorem Heap.linkDataNodes_eq (h : Heap K) (l r : Addr) (hprev : h.prevLeaf old = xs.getLast?)
    (hnext : h.nextLeaf old = ys.head?) (hold : old ∉ xs) :
    ∃ next prev, h.linkDataNodes old l r = { h with nextLeaf := next, prevLeaf := prev } ∧
      (∀ x, next x =
        if ys ≠ [] ∧ x = r then ys.head?
        else if xs.getLast? = some x then some l else h.nextLeaf x) ∧
      ∀ x, prev x =
        if ys.head? = some x then some r
        else if xs ≠ [] ∧ x = l then xs.getLast? else h.prevLeaf x := by
  rw [linkDataNodes]
  rcases List.eq_nil_or_concat xs with rfl | ⟨xs, x, rfl⟩
  case inl =>
    simp only [hprev, List.getLast?_nil, hnext]
    cases ys with
    | nil => exact ⟨_, _, rfl, by simp, by simp⟩
    | cons y ys =>
      refine ⟨_, _, rfl, fun a => ?_, fun a => ?_⟩
      · simp [update_apply]
      · simp [update_apply, @eq_comm _ a]
  case inr =>
    have hne : old ≠ x := by
      rintro rfl
      exact hold (by simp)
    rw [List.concat_eq_append, List.getLast?_concat] at hprev
    simp only [hprev, update_of_ne hne, hnext]
    cases ys with
    | nil =>
      refine ⟨_, _, rfl, fun a => ?_, fun a => ?_⟩
      · simp [update_apply, @eq_comm _ a]
      · simp [update_apply]
    | cons y ys =>
      refine ⟨_, _, rfl, fun a => ?_, fun a => ?_⟩
      · simp [update_apply, @eq_comm _ a]
      · simp [update_apply, @eq_comm _ a]

variable {s : Index K} {T : Set Addr} {g : Places} {p n : Option Addr}

theorem Layout.splice (hlay : Layout s T g (xs ++ old :: ys)) (h : Heap K) (ns : List Addr)
    (l r : Addr) (hnext : ∀ a, a < s.fresh → h.nextLeaf a = s.nextLeaf a)
    (hprev : ∀ a, a < s.fresh → h.prevLeaf a = s.prevLeaf a)
    (hns : Linked h.nextLeaf h.prevLeaf p ns n) (hnodup : ns.Nodup) (hhead : ns.head? = some l)
    (hlast : ns.getLast? = some r) (hfresh : ∀ a ∈ ns, s.fresh ≤ a)
    (hp : s.prevLeaf old = none → p = none) (hn : s.nextLeaf old = none → n = none) :
    ∃ next prev, h.linkDataNodes old l r = { h with nextLeaf := next, prevLeaf := prev } ∧
      Linked next prev none (xs ++ (ns ++ ys)) none := by
  have hlt : ∀ a ∈ xs ++ old :: ys, a < s.fresh := fun a ha => (hlay.leaf a ha).lt_fresh
  have hold : old ∈ xs ++ old :: ys := by simp
  have hlinked := hlay.linked.congr (fun a ha => hnext a (hlt a ha)) fun a ha => hprev a (hlt a ha)
  have hprevOld : s.prevLeaf old = xs.getLast? := by
    rw [hlay.linked.prev_eq, Option.or_none]
  have hnextOld : s.nextLeaf old = ys.head? := by
    rw [hlay.linked.next_eq, Option.or_none]
  have hnotMem : old ∉ xs := fun hmem =>
    (List.nodup_append.mp hlay.nodup).2.2 old hmem old List.mem_cons_self rfl
  obtain ⟨next, prev, heq, hnext', hprev'⟩ := h.linkDataNodes_eq l r
    ((hprev old (hlt old hold)).trans hprevOld) ((hnext old (hlt old hold)).trans hnextOld) hnotMem
  refine ⟨next, prev, heq, hlinked.splice hlay.nodup hns hnodup hhead hlast ?_ ?_ ?_ hnext' hprev'⟩
  · intro a ha hmem
    exact absurd (hlt a hmem) (not_lt.mpr (hfresh a ha))
  · rintro rfl
    exact hp hprevOld
  · rintro rfl
    exact hn hnextOld

end Link

section Replace

variable {s s' : Index K} {T : Set Addr} {g : Places} {chain xs ys : List Addr} {key : K}
  {leaf p x : Addr} {b : ℕ}

theorem orStop_eq_ok {α : Type} {stop : Stop} {o : Option α} {a : α} :
    orStop stop o = .ok a ↔ o = some a := by
  cases o with
  | none => simp [orStop]
  | some b => simp [orStop]

structure Replaced (s s' : Index K) (leaf p : Addr) (b : ℕ) : Prop where
  frame : Frame s.toHeap s'.toHeap p
  slots : s'.children p = fun i =>
    if s.startBucketID p leaf b ≤ i ∧ i < s.startBucketID p leaf b + s.repeats p leaf then
      some s.fresh
    else s.children p i
  fresh : s'.fresh = s.fresh + 1
  isLeaf : s'.isLeaf s.fresh = s.isLeaf leaf
  localDepth : s'.localDepth s.fresh = s.localDepth leaf
  level : s'.level s.fresh = s.level leaf
  rootNode : s'.rootNode = s.rootNode
  superroot : s'.superroot = s.superroot
  scheduled : s'.scheduled = leaf :: s.scheduled
  locked : ∀ a, s'.locked a = if a = s.fresh then false else s.locked a

theorem Layout.replaced (h : Layout s T g (xs ++ leaf :: ys))
    (hcall : s.replaceDataNode key leaf = .ok s') :
    ∃ p b, Layout.IsParent s T leaf p b ∧ Replaced s s' leaf p b ∧
      Linked s'.nextLeaf s'.prevLeaf none (xs ++ ([s.fresh] ++ ys)) none := by
  obtain ⟨⟨p, b⟩, hlock, hcall⟩ := bind_eq_ok.mp hcall
  have hp := h.lockParentNode_isParent (orStop_eq_ok.mp hlock)
  have hold : ∀ a, a < s.fresh → a ≠ s.fresh := fun a ha => ha.ne
  obtain ⟨next, prev, hlink, hlinked⟩ := h.splice
    ((s.newFromExisting leaf).setChildren p (s.startBucketID p leaf b) (s.repeats p leaf) s.fresh)
    [s.fresh] s.fresh s.fresh (fun a ha => update_of_ne ha.ne _ _)
    (fun a ha => update_of_ne ha.ne _ _) ⟨rfl, Option.none_or.symm, trivial⟩
    (List.nodup_singleton _) rfl rfl (by simp)
    (fun hprev => (update_self _ _ _).trans hprev) (fun hnext => (update_self _ _ _).trans hnext)
  have hs' : s' = { s with toHeap := _ }.safeDeleteNode leaf := (Except.ok.inj hcall).symm
  rw [Heap.linkResizingDataNodes, hlink] at hs'
  subst hs'
  refine ⟨p, b, hp,
    { frame := ⟨Nat.le_succ _, fun a ha => update_of_ne (hold a ha) _ _,
        fun a ha => update_of_ne (hold a ha) _ _, fun a ha => update_of_ne (hold a ha) _ _,
        fun _ _ => rfl, fun _ _ => rfl, fun a _ ha => update_of_ne ha _ _⟩
      slots := update_self _ _ _
      fresh := rfl
      isLeaf := update_self _ _ _
      localDepth := update_self _ _ _
      level := update_self _ _ _
      rootNode := rfl
      superroot := rfl
      scheduled := rfl
      locked := fun a => ?_ }, hlinked⟩
  split
  case isTrue hfresh =>
    subst hfresh
    exact update_self _ _ _
  case isFalse hfresh => exact (update_of_ne hfresh _ _).trans (update_of_ne hfresh _ _)

theorem Layout.replaceDataNode (h : Layout s T g chain) (hread : Readable s.toHeap T)
    (hleaf : leaf ∈ chain) (hroot : s.isLeaf s.rootNode = false)
    (hlocked : ∀ a ∈ chain, a ≠ leaf → s.locked a = false)
    (hcall : s.replaceDataNode key leaf = .ok s') : Valid s' := by
  have hisLeaf := (h.leaf leaf hleaf).isLeaf
  obtain ⟨xs, ys, rfl⟩ := List.append_of_mem hleaf
  obtain ⟨p, b, hp, hr, hlinked⟩ := h.replaced hcall
  have hframe := hr.frame
  have hptr := h.pointer hp.mem hp.isLeaf hp.child
  have hplt := h.mem_lt hp.mem
  have hlt := h.mem_lt hptr.mem
  have hps : p ≠ s.superroot := by
    intro heq
    rw [(hp.eq_root h heq).1, hroot] at hisLeaf
    cases hisLeaf
  let new : Places :=
    { parent := fun _ => p
      block := fun _ => b / s.repeats p leaf
      lo := fun _ => g.lo leaf
      hi := fun _ => g.hi leaf }
  have hs : g.Spread (g.extend 1 s.fresh leaf leaf new) 1 s.fresh leaf :=
    Places.extend_spread Int.one_pos
  have hlo : (g.extend 1 s.fresh leaf leaf new).lo leaf ≤
      (g.extend 1 s.fresh leaf leaf new).lo s.fresh := by
    rw [hs.lo leaf hlt, one_mul]
    exact (if_neg (lt_irrefl _)).ge
  have hhi : (g.extend 1 s.fresh leaf leaf new).hi s.fresh ≤
      (g.extend 1 s.fresh leaf leaf new).hi leaf := by
    rw [hs.hi leaf hlt, one_mul, sub_self, add_zero]
    exact (if_neg (lt_irrefl _)).le
  have hslots : Slots s.toHeap s'.toHeap {s.fresh} (g.extend 1 s.fresh leaf leaf new) leaf p b := by
    refine Slots.single hr.slots rfl (hframe.numChildren p hplt) hr.localDepth hptr.depth ?_
      (if_neg (lt_irrefl _)) (if_neg (lt_irrefl _)) hlo hhi
    rw [hframe.level p hplt, hr.level]
    exact hptr.level
  have hmodel : ∀ a ∈ ({s.fresh} : Set Addr), s'.isLeaf a ≠ false := by
    rintro a rfl hfalse
    rw [hr.isLeaf, hisLeaf] at hfalse
    cases hfalse
  have hsuper : s.superroot < s.fresh := h.mem_lt h.superroot_mem
  refine ⟨T \ {leaf} ∪ {s.fresh}, g.extend 1 s.fresh leaf leaf new, xs ++ ([s.fresh] ++ ys),
    h.graft_leaf hp hframe hs hslots ?_ (fun a ha hf => absurd hf (hmodel a ha))
      (Places.extend_lo_le_hi Int.one_pos h.lo_le_hi fun _ _ => h.lo_le_hi leaf) hr.superroot ?_ ?_
      (fun a ha hf => absurd hf (hmodel a ha)) hlinked hr.scheduled ?_ ?_
      (List.pairwise_singleton _ _) ?_,
    hread.graft h hframe hslots fun a ha hf => absurd hf (hmodel a ha), ?_⟩
  · rintro a rfl
    rw [hr.fresh]
    exact ⟨le_rfl, Nat.lt_succ_self _⟩
  · rw [hframe.child hsuper hps.symm, h.superroot_child, hr.rootNode]
  · rw [hr.rootNode, hframe.level _ hsuper, hframe.level _ (h.mem_lt h.root_pointer.mem)]
    exact h.superroot_level
  · intro a ha
    obtain rfl := List.mem_singleton.mp ha
    exact ⟨rfl, hr.isLeaf.trans hisLeaf⟩
  · rintro a rfl -
    exact List.mem_singleton_self _
  · intro a ha
    obtain rfl := List.mem_singleton.mp ha
    exact ⟨hlo, hhi⟩
  · intro a ha
    rw [hr.locked]
    split
    case isTrue => rfl
    case isFalse hfresh =>
      obtain ⟨hmem, hne⟩ := h.mem_spliced ha (by simpa using hfresh)
      exact hlocked a hmem hne

end Replace

section Expand

variable {h : Heap K} {a : Addr}

theorem LinearModel.max_predict (m : LinearModel K) (key : K) :
    max (m.predict key) 0 = (⌊m.predictDouble key⌋₊ : ℤ) := by
  rw [predict]
  rcases le_or_gt 0 (m.predictDouble key) with hpos | hneg
  case inl =>
    have hnum : 0 ≤ (m.predictDouble key).num := Rat.num_nonneg.mpr hpos
    rw [Int.tdiv_eq_ediv_of_nonneg hnum, ← Rat.floor_def', Int.natCast_floor_eq_floor hpos]
    exact max_eq_left (Int.floor_nonneg.mpr hpos)
  case inr =>
    have hnum : (m.predictDouble key).num < 0 := Rat.num_neg.mpr hneg
    rw [Nat.floor_of_nonpos hneg.le]
    refine max_eq_right ?_
    rw [← Int.neg_nonneg, ← Int.neg_tdiv]
    exact Int.tdiv_nonneg (Int.neg_nonneg.mpr hnum.le) (Int.natCast_nonneg _)

theorem Heap.bucketID_eq (key : K) (hpos : 0 < h.numChildren a) :
    h.bucketID a key = min ⌊(h.model a).predictDouble key⌋₊ (h.numChildren a - 1) := by
  rw [bucketID, LinearModel.max_predict]
  omega

theorem Heap.bucketID_lt (key : K) (hpos : 0 < h.numChildren a) :
    h.bucketID a key < h.numChildren a := by
  rw [h.bucketID_eq key hpos]
  exact (min_le_right _ _).trans_lt (Nat.sub_lt hpos Nat.one_pos)

theorem min_div {n f q : ℕ} (hn : 0 < n) (hf : 0 < f) :
    min q (n * f - 1) / f = min (q / f) (n - 1) := by
  have hlast : (n * f - 1) / f = n - 1 := by
    refine Nat.div_eq_of_lt_le ?_ ?_
    · rw [Nat.sub_mul]
      omega
    · rw [Nat.sub_add_cancel hn]
      exact Nat.sub_lt (Nat.mul_pos hn hf) Nat.one_pos
  have hmono : Monotone fun x : ℕ => x / f := fun _ _ hle => Nat.div_le_div_right hle
  rw [← hlast]
  exact hmono.map_min

theorem Heap.bucketID_expand {h' : Heap K} {y : Addr} {f : ℕ} {near : K → Option Side} (key : K)
    (hpos : 0 < h.numChildren a) (hf : 0 < f) (hnum : h'.numChildren y = h.numChildren a * f)
    (hmodel : h'.model y = (h.model a).expand f near) :
    h'.bucketID y key / f = h.bucketID a key := by
  have hdiv : (h.model a).predictDouble key * f / f = (h.model a).predictDouble key :=
    mul_div_cancel_right₀ _ (Nat.cast_ne_zero.mpr hf.ne')
  rw [h'.bucketID_eq key (hnum ▸ Nat.mul_pos hpos hf), h.bucketID_eq key hpos, hnum, hmodel,
    min_div hpos hf, LinearModel.expand, ← Nat.floor_div_natCast, hdiv]

variable {s s' : Index K} {T : Set Addr} {g : Places} {chain : List Addr} {key : K}
  {x y p node : Addr} {b e : ℕ} {c : Split K}

theorem Index.replaceChild_eq (s : Index K) (p b x y : ℕ)
    (hsuper : p = s.superroot → b = 0 ∧ s.level s.superroot = s.level y - 1) :
    s.replaceChild p b x y =
      { s with
        toHeap := s.setChildren p (s.startBucketID p x b) (s.repeats p x) y
        rootNode := if p = s.superroot then y else s.rootNode } := by
  rw [replaceChild]
  by_cases hps : p = s.superroot
  case neg => simp only [if_neg hps]
  case pos =>
    obtain ⟨rfl, hlevel⟩ := hsuper hps
    subst hps
    have hstart : s.startBucketID s.superroot x 0 = 0 := by
      rw [Heap.startBucketID, Nat.zero_sub]
    have hpos := s.repeats_pos s.superroot x
    simp only [if_pos, updateSuperrootPointer, Heap.setChildren, hstart, update_self]
    congr 2
    · exact (congrArg (update s.level s.superroot) hlevel.symm).trans (update_eq_self _ _)
    · rw [update_idem]
      congr 1
      funext i
      by_cases hi : i = 0
      · subst hi
        rw [update_self, if_pos ⟨le_rfl, by omega⟩]
      · rw [update_of_ne hi]

structure Widened (s s' : Index K) (node : Addr) (e : ℕ) : Prop where
  isLeaf : s'.isLeaf s.fresh = false
  localDepth : s'.localDepth s.fresh = s.localDepth node
  level : s'.level s.fresh = s.level node
  model : ∃ near, s'.model s.fresh = (s.model node).expand (2 ^ e) near
  numChildren : s'.numChildren s.fresh = s.numChildren node * 2 ^ e
  children : s'.children s.fresh = fun i => s.children node (i / 2 ^ e)
  locked : s'.locked = s.locked

theorem Widened.child (hw : Widened s s' node e) (i : ℕ) :
    s'.child s.fresh i = s.child node (i / 2 ^ e) := by
  have hlt : i < s.numChildren node * 2 ^ e ↔ i / 2 ^ e < s.numChildren node :=
    (Nat.div_lt_iff_lt_mul (Nat.two_pow_pos e)).symm
  rw [Heap.child, Heap.child, hw.numChildren, hw.children]
  by_cases hi : i < s.numChildren node * 2 ^ e
  · rw [if_pos hi, if_pos (hlt.mp hi)]
  · rw [if_neg hi, if_neg (mt hlt.mpr hi)]

theorem Widened.nodeOk {g' : Places} (hw : Widened s s' node e) (h : Layout s T g chain)
    (hnode : node ∈ T) (hmodel : s.isLeaf node = false) (f : Frame s.toHeap s'.toHeap p)
    (hlo : ∀ a, a < s.fresh → g'.lo a = g.lo a) (hhi : ∀ a, a < s.fresh → g'.hi a = g.hi a)
    (hparent : ∀ a, a < s.fresh → g.parent a = node → g'.parent a = s.fresh)
    (hblock : ∀ a, a < s.fresh → g'.block a = g.block a) (hloNew : g'.lo s.fresh = g.lo node)
    (hhiNew : g'.hi s.fresh = g.hi node) :
    NodeOk s'.toHeap (T \ {node} ∪ {s.fresh}) g' s.fresh := by
  have hok := h.node node hnode hmodel
  obtain ⟨k, hk⟩ := hok.size
  refine ⟨⟨k + e, ?_⟩, fun i c hchild => ?_, fun i j c d hij hi hj hcd => ?_⟩
  · rw [hw.numChildren, hk, Nat.pow_add]
  · rw [hw.child] at hchild
    have hptr := hok.pointer _ c hchild
    have hc := h.mem_lt hptr.mem
    have hne : c ≠ node := by
      rintro rfl
      exact lt_irrefl _ hptr.level
    have hdepth := hptr.depth
    rw [hk, Nat.log2_two_pow] at hdepth
    refine ⟨.inl ⟨hptr.mem, hne⟩, ?_, ?_, hparent c hc hptr.parent, ?_, ?_, ?_⟩
    · rw [hw.level, f.level c hc]
      exact hptr.level
    · rw [f.localDepth c hc, hw.numChildren, hk, ← Nat.pow_add, Nat.log2_two_pow]
      omega
    · have hrepeats : s'.repeats s.fresh c = 2 ^ e * s.repeats node c := by
        rw [Heap.repeats, Heap.repeats, hw.numChildren, f.localDepth c hc, hk, ← Nat.pow_add,
          ← Nat.pow_add, Nat.log2_two_pow, Nat.log2_two_pow]
        congr 1
        omega
      rw [hrepeats, ← Nat.div_div_eq_div_mul, hblock c hc]
      exact hptr.block
    · rw [hloNew, hlo c hc]
      exact hptr.lo
    · rw [hhiNew, hhi c hc]
      exact hptr.hi
  · rw [hw.child] at hi hj
    have hle : i / 2 ^ e ≤ j / 2 ^ e := Nat.div_le_div_right hij.le
    have hlt : i / 2 ^ e < j / 2 ^ e := by
      refine lt_of_le_of_ne hle fun heq => hcd ?_
      rw [heq, hj] at hi
      exact (Option.some_inj.mp hi).symm
    rw [hhi c (h.mem_lt (hok.pointer _ c hi).mem), hlo d (h.mem_lt (hok.pointer _ d hj).mem)]
    exact hok.order _ _ c d hlt hi hj hcd

structure Expanded (s s' : Index K) (node p : Addr) (b e : ℕ) : Prop where
  frame : Frame s.toHeap s'.toHeap p
  widened : Widened s s' node e
  slots : s'.children p = fun i =>
    if s.startBucketID p node b ≤ i ∧ i < s.startBucketID p node b + s.repeats p node then
      some s.fresh
    else s.children p i
  fresh : s'.fresh = s.fresh + 1
  rootNode : s'.rootNode = if p = s.superroot then s.fresh else s.rootNode
  superroot : s'.superroot = s.superroot
  nextLeaf : s'.nextLeaf = s.nextLeaf
  prevLeaf : s'.prevLeaf = s.prevLeaf
  scheduled : s'.scheduled = node :: s.scheduled

theorem Layout.expanded (h : Layout s T g chain) (hnode : node ∈ T)
    (hcall : s.expandNode c key node e = .ok s') :
    ∃ p b, Layout.IsParent s T node p b ∧ Expanded s s' node p b e := by
  obtain ⟨⟨p, b⟩, hlock, hcall⟩ := bind_eq_ok.mp hcall
  have hp := h.lockParentNode_isParent (orStop_eq_ok.mp hlock)
  have hplt := h.mem_lt hp.mem
  have hlt := h.mem_lt hnode
  have hsuper := h.mem_lt h.superroot_mem
  have hold : ∀ a, a < s.fresh → a ≠ s.fresh := fun a ha => ha.ne
  have hchildren₁ : (s.expand node e c.expandedNear).children p = s.children p :=
    update_of_ne (hold p hplt) _ _
  have hrepeats₁ : (s.expand node e c.expandedNear).repeats p node = s.repeats p node := by
    simp only [Heap.repeats, Heap.expand, Heap.newModelNode, update_of_ne (hold p hplt),
      update_of_ne (hold node hlt)]
  have hstart₁ : (s.expand node e c.expandedNear).startBucketID p node b =
      s.startBucketID p node b := by
    rw [Heap.startBucketID, Heap.startBucketID, hrepeats₁]
  have hsuper₁ : p = s.superroot → b = 0 ∧ (s.expand node e c.expandedNear).level s.superroot =
      (s.expand node e c.expandedNear).level s.fresh - 1 := by
    intro hps
    obtain ⟨hroot, hb⟩ := hp.eq_root h hps
    refine ⟨hb, ?_⟩
    simp only [Heap.expand, Heap.newModelNode, update_self, update_of_ne (hold _ hsuper)]
    rw [hroot]
    exact h.superroot_level
  have hs' := (Except.ok.inj hcall).symm
  rw [Index.replaceChild_eq { s with toHeap := s.expand node e c.expandedNear } p b node s.fresh
    hsuper₁] at hs'
  have hchildren : s'.children = update (s.expand node e c.expandedNear).children p fun i =>
      if s.startBucketID p node b ≤ i ∧ i < s.startBucketID p node b + s.repeats p node then
        some s.fresh
      else s.children p i := by
    rw [← hstart₁, ← hrepeats₁, ← hchildren₁, hs']
    rfl
  refine ⟨p, b, hp, ⟨?_, fun a ha => ?_, fun a ha => ?_, fun a ha => ?_, fun a ha => ?_, fun a ha => ?_,
    fun a ha hne => ?_⟩, ⟨?_, ?_, ?_, ⟨c.expandedNear, ?_⟩, ?_, ?_, ?_⟩, ?_, hs' ▸ rfl, hs' ▸ rfl,
    hs' ▸ rfl, hs' ▸ rfl, hs' ▸ rfl, hs' ▸ rfl⟩
  · rw [hs']
    exact Nat.le_succ _
  · rw [hs']
    exact update_of_ne (hold a ha) _ _
  · rw [hs']
    exact update_of_ne (hold a ha) _ _
  · rw [hs']
    exact update_of_ne (hold a ha) _ _
  · rw [hs']
    exact update_of_ne (hold a ha) _ _
  · rw [hs']
    exact update_of_ne (hold a ha) _ _
  · rw [hchildren, update_of_ne hne]
    exact update_of_ne (hold a ha) _ _
  · rw [hs']
    exact update_self _ _ _
  · rw [hs']
    exact update_self _ _ _
  · rw [hs']
    exact update_self _ _ _
  · rw [hs']
    exact update_self _ _ _
  · rw [hs']
    exact update_self _ _ _
  · rw [hchildren, update_of_ne (hold p hplt).symm]
    exact update_self _ _ _
  · rw [hs']
    rfl
  · rw [hchildren, update_self]

theorem Layout.expandNode (h : Layout s T g chain) (hread : Readable s.toHeap T) (hnode : node ∈ T)
    (hmodel : s.isLeaf node = false) (hcall : s.expandNode c key node e = .ok s') :
    ∃ g', Layout s' (T \ {node} ∪ {s.fresh}) g' chain ∧
      Readable s'.toHeap (T \ {node} ∪ {s.fresh}) ∧ Widened s s' node e ∧
      (∀ a, a < s.fresh → s'.localDepth a = s.localDepth a) := by
  obtain ⟨p, b, hp, hx⟩ := h.expanded hnode hcall
  have hptr := h.pointer hp.mem hp.isLeaf hp.child
  have hplt := h.mem_lt hp.mem
  have hlt := h.mem_lt hnode
  have hframe := hx.frame
  have hwide := hx.widened
  let new : Places :=
    { parent := fun _ => p
      block := fun _ => b / s.repeats p node
      lo := fun _ => g.lo node
      hi := fun _ => g.hi node }
  have hs : g.Spread (g.extend 1 s.fresh node s.fresh new) 1 s.fresh node :=
    Places.extend_spread Int.one_pos
  have hlo : ∀ a, a < s.fresh → (g.extend 1 s.fresh node s.fresh new).lo a = g.lo a := by
    intro a ha
    rw [hs.lo a ha, one_mul]
  have hhi : ∀ a, a < s.fresh → (g.extend 1 s.fresh node s.fresh new).hi a = g.hi a := by
    intro a ha
    rw [hs.hi a ha, one_mul, sub_self, add_zero]
  have hloNew : (g.extend 1 s.fresh node s.fresh new).lo s.fresh = g.lo node :=
    if_neg (lt_irrefl _)
  have hhiNew : (g.extend 1 s.fresh node s.fresh new).hi s.fresh = g.hi node :=
    if_neg (lt_irrefl _)
  have hslots : Slots s.toHeap s'.toHeap {s.fresh} (g.extend 1 s.fresh node s.fresh new) node p
      b := by
    refine Slots.single ?_ rfl (hframe.numChildren p hplt) hwide.localDepth hptr.depth ?_
      (if_neg (lt_irrefl _)) (if_neg (lt_irrefl _)) ?_ ?_
    · exact hx.slots
    · rw [hframe.level p hplt, hwide.level]
      exact hptr.level
    · rw [hlo node hlt, hloNew]
    · rw [hhi node hlt, hhiNew]
  have hchild : s'.child p b = some s.fresh := by
    obtain ⟨c, hc, hnew⟩ := hslots.new b rfl
    rw [Heap.child, hframe.numChildren p hplt, if_pos (Heap.child_lt hp.child), hnew, hc]
  obtain ⟨hroot, hlevel⟩ := h.graft_root hp hframe hx.rootNode hchild hwide.level
  have hnotMem : ∀ a ∈ chain, a ≠ node := by
    rintro a ha rfl
    rw [(h.leaf a ha).isLeaf] at hmodel
    cases hmodel
  refine ⟨g.extend 1 s.fresh node s.fresh new, ?_, ?_, hwide, hframe.localDepth⟩
  · refine h.graft hp hframe hs hslots ?_ ?_
      (Places.extend_lo_le_hi Int.one_pos h.lo_le_hi fun _ _ => h.lo_le_hi node) hx.superroot hroot
      hlevel ?_ ?_ (fun a ha _ => ha) ?_ (fun a ha => ?_) ?_ ?_
    · rintro a rfl
      rw [hx.fresh]
      exact ⟨le_rfl, Nat.lt_succ_self _⟩
    · rintro a rfl -
      refine hwide.nodeOk h hnode hmodel hframe hlo hhi (fun a ha hpar => ?_)
        (fun a ha => if_pos ha) hloNew hhiNew
      exact (if_pos ha).trans (if_pos hpar)
    · rintro a rfl - i hi
      rw [hwide.child] at hi
      exact h.top node hnode hmodel _ hi
    · rw [hx.nextLeaf, hx.prevLeaf]
      exact h.linked
    · rintro a rfl hleaf
      rw [hwide.isLeaf] at hleaf
      cases hleaf
    · have hok := h.leaf a ha
      refine ⟨(hframe.isLeaf a hok.lt_fresh).trans hok.isLeaf,
        hok.lt_fresh.trans_le hframe.fresh, ?_⟩
      rw [hx.scheduled]
      exact List.not_mem_cons_of_ne_of_not_mem (hnotMem a ha) hok.unscheduled
    · rw [hx.scheduled, hx.fresh]
      intro a ha
      rcases List.mem_cons.mp ha with rfl | ha
      · exact Nat.lt_succ_of_lt hlt
      · exact Nat.lt_succ_of_lt (h.scheduled_lt a ha)
    · exact h.sorted.imp_of_mem fun {a b} ha hb hab =>
        hs.lt (h.leaf a ha).lt_fresh (h.leaf b hb).lt_fresh hab
  · refine hread.graft h hframe hslots ?_
    rintro a rfl - key
    obtain ⟨near, hnear⟩ := hwide.model
    have hpos := (h.node node hnode hmodel).numChildren_pos
    rw [hwide.child, Heap.bucketID_expand key hpos (Nat.two_pow_pos e) hwide.numChildren hnear]
    exact hread node hnode hmodel key

end Expand

end LearnedIndexFramework.Alexol
