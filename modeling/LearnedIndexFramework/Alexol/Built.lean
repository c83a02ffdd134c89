import LearnedIndexFramework.Alexol.Splits

/-! The trees that `bulk_load_node` makes, node by node. -/

namespace LearnedIndexFramework.Alexol

open Lib Function

variable {K : Type}

structure SameNode (h h' : Heap K) (a : Addr) : Prop extends SameShape h h' a where
  nextLeaf : h'.nextLeaf a = h.nextLeaf a
  prevLeaf : h'.prevLeaf a = h.prevLeaf a
  locked : h'.locked a = h.locked a

theorem SameNode.refl (h : Heap K) (a : Addr) : SameNode h h a := ⟨.refl h a, rfl, rfl, rfl⟩

theorem SameNode.trans {h h' h'' : Heap K} {a : Addr} (hs : SameNode h h' a)
    (hs' : SameNode h' h'' a) : SameNode h h'' a :=
  ⟨⟨hs'.isLeaf.trans hs.isLeaf, hs'.localDepth.trans hs.localDepth, hs'.level.trans hs.level,
    hs'.numChildren.trans hs.numChildren, hs'.children.trans hs.children⟩,
    hs'.nextLeaf.trans hs.nextLeaf, hs'.prevLeaf.trans hs.prevLeaf, hs'.locked.trans hs.locked⟩

structure NewLeaf (h : Heap K) (g : Places) (a : Addr) : Prop where
  lo : g.lo a = a
  hi : g.hi a = a
  nextLeaf : h.nextLeaf a = none
  prevLeaf : h.prevLeaf a = none
  locked : h.locked a = false

structure Built (h : Heap K) (g : Places) (first stop : ℕ) : Prop where
  node : ∀ a, first ≤ a → a < stop → h.isLeaf a = false →
    NodeOk h {a | first ≤ a ∧ a < stop} g a
  full : ∀ a, first ≤ a → a < stop → h.isLeaf a = false → ∀ i, i < h.numChildren a →
    (h.children a i).isSome
  leaf : ∀ a, first ≤ a → a < stop → h.isLeaf a = true → NewLeaf h g a
  lo : ∀ a, first ≤ a → a < stop → first ≤ g.lo a
  hi : ∀ a, first ≤ a → a < stop → g.hi a < stop
  lo_le_hi : ∀ a, first ≤ a → a < stop → g.lo a ≤ g.hi a

def Places.glue (g g' : Places) (mid : ℕ) : Places where
  parent a := if a < mid then g.parent a else g'.parent a
  block a := if a < mid then g.block a else g'.block a
  lo a := if a < mid then g.lo a else g'.lo a
  hi a := if a < mid then g.hi a else g'.hi a

section

variable {h h' : Heap K} {g g' : Places} {first mid stop : ℕ} {T T' : Set Addr} {a : Addr}

theorem Places.glue_left (ha : a < mid) : SamePlace g (g.glue g' mid) a :=
  ⟨if_pos ha, if_pos ha, if_pos ha, if_pos ha⟩

theorem Places.glue_right (ha : mid ≤ a) : SamePlace g' (g.glue g' mid) a :=
  ⟨if_neg ha.not_gt, if_neg ha.not_gt, if_neg ha.not_gt, if_neg ha.not_gt⟩

theorem Built.congr (hb : Built h g first stop)
    (hnode : ∀ a, first ≤ a → a < stop → SameNode h h' a)
    (hplace : ∀ a, first ≤ a → a < stop → SamePlace g g' a) : Built h' g' first stop := by
  refine ⟨fun a ha ha' hf => ?_, fun a ha ha' hf i hi => ?_, fun a ha ha' hl => ?_,
    fun a ha ha' => ?_, fun a ha ha' => ?_, fun a ha ha' => ?_⟩
  · rw [(hnode a ha ha').isLeaf] at hf
    exact (hb.node a ha ha' hf).congr_of_mem ⟨ha, ha'⟩ subset_rfl
      (fun a ha => (hnode a ha.1 ha.2).toSameShape) fun a ha => hplace a ha.1 ha.2
  · rw [(hnode a ha ha').isLeaf] at hf
    rw [(hnode a ha ha').numChildren] at hi
    rw [(hnode a ha ha').children]
    exact hb.full a ha ha' hf i hi
  · rw [(hnode a ha ha').isLeaf] at hl
    have hleaf := hb.leaf a ha ha' hl
    have hs := hnode a ha ha'
    have hp := hplace a ha ha'
    exact ⟨hp.lo.trans hleaf.lo, hp.hi.trans hleaf.hi, hs.nextLeaf.trans hleaf.nextLeaf,
      hs.prevLeaf.trans hleaf.prevLeaf, hs.locked.trans hleaf.locked⟩
  · rw [(hplace a ha ha').lo]
    exact hb.lo a ha ha'
  · rw [(hplace a ha ha').hi]
    exact hb.hi a ha ha'
  · rw [(hplace a ha ha').lo, (hplace a ha ha').hi]
    exact hb.lo_le_hi a ha ha'

theorem Built.append (hb : Built h g first mid) (hb' : Built h g mid stop) (hfirst : first ≤ mid)
    (hstop : mid ≤ stop) : Built h g first stop := by
  have hmono : {a | first ≤ a ∧ a < mid} ⊆ {a | first ≤ a ∧ a < stop} :=
    fun a ha => ⟨ha.1, ha.2.trans_le hstop⟩
  have hmono' : {a | mid ≤ a ∧ a < stop} ⊆ {a | first ≤ a ∧ a < stop} :=
    fun a ha => ⟨hfirst.trans ha.1, ha.2⟩
  refine ⟨fun a ha ha' hf => ?_, fun a ha ha' => ?_, fun a ha ha' => ?_, fun a ha ha' => ?_,
    fun a ha ha' => ?_, fun a ha ha' => ?_⟩
  all_goals rcases lt_or_ge a mid with hlt | hge
  · exact (hb.node a ha hlt hf).mono hmono
  · exact (hb'.node a hge ha' hf).mono hmono'
  · exact hb.full a ha hlt
  · exact hb'.full a hge ha'
  · exact hb.leaf a ha hlt
  · exact hb'.leaf a hge ha'
  · exact hb.lo a ha hlt
  · exact (Int.ofNat_le.mpr hfirst).trans (hb'.lo a hge ha')
  · exact (hb.hi a ha hlt).trans_le (Int.ofNat_le.mpr hstop)
  · exact hb'.hi a hge ha'
  · exact hb.lo_le_hi a ha hlt
  · exact hb'.lo_le_hi a hge ha'

theorem Built.snoc (hb : Built h g first stop) (hle : first ≤ stop) (hmodel : h.isLeaf stop = false)
    (hnode : NodeOk h {a | first ≤ a ∧ a < stop + 1} g stop)
    (hfull : ∀ i, i < h.numChildren stop → (h.children stop i).isSome) (hlo : g.lo stop = first)
    (hhi : g.hi stop = stop) : Built h g first (stop + 1) := by
  have hmono : {a | first ≤ a ∧ a < stop} ⊆ {a | first ≤ a ∧ a < stop + 1} :=
    fun a ha => ⟨ha.1, ha.2.trans (Nat.lt_succ_self _)⟩
  refine ⟨fun a ha ha' hf => ?_, fun a ha ha' hf => ?_, fun a ha ha' hf => ?_, fun a ha ha' => ?_,
    fun a ha ha' => ?_, fun a ha ha' => ?_⟩
  all_goals rcases Nat.lt_succ_iff_lt_or_eq.mp ha' with hlt | rfl
  · exact (hb.node a ha hlt hf).mono hmono
  · exact hnode
  · exact hb.full a ha hlt hf
  · exact hfull
  · exact hb.leaf a ha hlt hf
  · rw [hmodel] at hf
    cases hf
  · exact hb.lo a ha hlt
  · exact hlo.ge
  · exact (hb.hi a ha hlt).trans (Int.ofNat_lt.mpr (Nat.lt_succ_self _))
  · rw [hhi]
    exact Int.ofNat_lt.mpr (Nat.lt_succ_self _)
  · exact hb.lo_le_hi a ha hlt
  · rw [hlo, hhi]
    exact Int.ofNat_le.mpr hle

end

structure LoadedNode (h h' : Heap K) (g : Places) (level : ℤ) (depth p b : ℕ) : Prop where
  lt : h.fresh < h'.fresh
  same : ∀ a, a < h.fresh → SameNode h h' a
  built : Built h' g h.fresh h'.fresh
  level : h'.level (h'.fresh - 1) = level
  localDepth : h'.localDepth (h'.fresh - 1) = depth
  parent : g.parent (h'.fresh - 1) = p
  block : g.block (h'.fresh - 1) = b

structure LoadedNodes (h h' : Heap K) (g : Places) (level : ℤ) (levels : List ℕ) (p : ℕ)
    (blocks : ℕ → ℕ) (ns : List Addr) : Prop where
  le : h.fresh ≤ h'.fresh
  same : ∀ a, a < h.fresh → SameNode h h' a
  built : Built h' g h.fresh h'.fresh
  length : ns.length = levels.length
  mem : ∀ a ∈ ns, h.fresh ≤ a ∧ a < h'.fresh
  level : ∀ a ∈ ns, h'.level a = level
  parent : ∀ a ∈ ns, g.parent a = p
  localDepth : ∀ k a, ns[k]? = some a → h'.localDepth a = levels.getD k 0
  block : ∀ k a, ns[k]? = some a → g.block a = blocks k
  sorted : ns.Pairwise fun a b => g.hi a < g.lo b

section

variable {h h' h'' : Heap K} {g g' : Places} {level : ℤ} {depth p b : ℕ} {ns ns' : List Addr}
  {levels levels' : List ℕ} {blocks : ℕ → ℕ}

theorem LoadedNode.nodes (hl : LoadedNode h h' g level depth p (blocks 0)) :
    LoadedNodes h h' g level [depth] p blocks [h'.fresh - 1] := by
  have hlt := hl.lt
  refine ⟨hlt.le, hl.same, hl.built, rfl, ?_, ?_, ?_, fun k a hk => ?_, fun k a hk => ?_,
    List.pairwise_singleton _ _⟩
  · rw [List.forall_mem_singleton]
    exact ⟨Nat.le_sub_one_of_lt hlt, Nat.sub_one_lt_of_lt hlt⟩
  · rw [List.forall_mem_singleton]
    exact hl.level
  · rw [List.forall_mem_singleton]
    exact hl.parent
  · obtain ⟨hlt, rfl⟩ := List.getElem?_eq_some_iff.mp hk
    obtain rfl := Nat.lt_one_iff.mp hlt
    exact hl.localDepth
  · obtain ⟨hlt, rfl⟩ := List.getElem?_eq_some_iff.mp hk
    obtain rfl := Nat.lt_one_iff.mp hlt
    exact hl.block

theorem LoadedNodes.append (hl : LoadedNodes h h' g level levels p blocks ns)
    (hr : LoadedNodes h' h'' g' level levels' p (fun k => blocks (ns.length + k)) ns') :
    LoadedNodes h h'' (g.glue g' h'.fresh) level (levels ++ levels') p blocks (ns ++ ns') := by
  have hgl : ∀ a ∈ ns, SamePlace g (g.glue g' h'.fresh) a :=
    fun a ha => Places.glue_left (hl.mem a ha).2
  have hgr : ∀ a ∈ ns', SamePlace g' (g.glue g' h'.fresh) a :=
    fun a ha => Places.glue_right (hr.mem a ha).1
  have hsl : ∀ a ∈ ns, SameNode h' h'' a := fun a ha => hr.same a (hl.mem a ha).2
  refine ⟨hl.le.trans hr.le, fun a ha => (hl.same a ha).trans (hr.same a (ha.trans_le hl.le)),
    ?_, ?_, ?_, ?_, ?_, fun k a hk => ?_, fun k a hk => ?_, ?_⟩
  · have hleft := hl.built.congr (fun a _ ha => hr.same a ha)
      fun a _ ha => (Places.glue_left ha : SamePlace g (g.glue g' h'.fresh) a)
    have hright := hr.built.congr (fun a _ _ => .refl h'' a)
      fun a ha _ => Places.glue_right (g := g) ha
    exact hleft.append hright hl.le hr.le
  · rw [List.length_append, List.length_append, hl.length, hr.length]
  · rw [List.forall_mem_append]
    exact ⟨fun a ha => ⟨(hl.mem a ha).1, (hl.mem a ha).2.trans_le hr.le⟩,
      fun a ha => ⟨hl.le.trans (hr.mem a ha).1, (hr.mem a ha).2⟩⟩
  · rw [List.forall_mem_append]
    exact ⟨fun a ha => (hsl a ha).level.trans (hl.level a ha), hr.level⟩
  · rw [List.forall_mem_append]
    exact ⟨fun a ha => (hgl a ha).parent.trans (hl.parent a ha),
      fun a ha => (hgr a ha).parent.trans (hr.parent a ha)⟩
  · rcases lt_or_ge k ns.length with hlt | hge
    · rw [List.getElem?_append_left hlt] at hk
      rw [(hsl a (List.mem_of_getElem? hk)).localDepth, hl.localDepth k a hk,
        List.getD_append _ _ _ _ (hl.length ▸ hlt)]
    · rw [List.getElem?_append_right hge] at hk
      rw [hr.localDepth _ a hk, List.getD_append_right _ _ _ _ (hl.length ▸ hge), hl.length]
  · rcases lt_or_ge k ns.length with hlt | hge
    · rw [List.getElem?_append_left hlt] at hk
      rw [(hgl a (List.mem_of_getElem? hk)).block, hl.block k a hk]
    · rw [List.getElem?_append_right hge] at hk
      rw [(hgr a (List.mem_of_getElem? hk)).block, hr.block _ a hk, Nat.add_sub_cancel' hge]
  · rw [List.pairwise_append]
    refine ⟨hl.sorted.imp_of_mem fun {a b} ha hb hab => ?_,
      hr.sorted.imp_of_mem fun {a b} ha hb hab => ?_, fun a ha b hb => ?_⟩
    · rw [(hgl a ha).hi, (hgl b hb).lo]
      exact hab
    · rw [(hgr a ha).hi, (hgr b hb).lo]
      exact hab
    · rw [(hgl a ha).hi, (hgr b hb).lo]
      exact (hl.built.hi a (hl.mem a ha).1 (hl.mem a ha).2).trans_le
        (hr.built.lo b (hr.mem b hb).1 (hr.mem b hb).2)

theorem loadedNode_data (h : Heap K) (level : ℤ) (depth p b : ℕ) (limits : Limits K) :
    ∃ g, LoadedNode h (Plan.bulkLoadNode level depth (.data limits) h) g level depth p b := by
  have hold : ∀ a, a < h.fresh → ¬(h.fresh ≤ a ∧ a < h.fresh + 1) :=
    fun a ha hand => absurd hand.1 (not_le.mpr ha)
  have hnew : h.fresh ≤ h.fresh ∧ h.fresh < h.fresh + 1 := ⟨le_rfl, Nat.lt_succ_self _⟩
  have heq : ∀ a, h.fresh ≤ a → a < h.fresh + 1 → a = h.fresh :=
    fun a ha ha' => (Nat.lt_succ_iff.mp ha').antisymm ha
  rw [Plan.bulkLoadNode]
  refine ⟨⟨fun _ => p, fun _ => b, fun a => a, fun a => a⟩, Nat.lt_succ_self _, fun a ha => ?_, ?_,
    if_pos hnew, if_pos hnew, rfl, rfl⟩
  · exact ⟨⟨if_neg (hold a ha), if_neg (hold a ha), if_neg (hold a ha), rfl, rfl⟩,
      if_neg (hold a ha), if_neg (hold a ha), (if_neg (hold a ha)).trans (if_neg (hold a ha))⟩
  · refine ⟨fun a ha ha' hf => ?_, fun a ha ha' hf => ?_, fun a ha ha' _ => ?_, fun a ha _ => ?_,
      fun a _ ha' => ?_, fun a _ _ => le_rfl⟩
    · exact absurd ((if_pos ⟨ha, ha'⟩).symm.trans hf) Bool.noConfusion
    · exact absurd ((if_pos ⟨ha, ha'⟩).symm.trans hf) Bool.noConfusion
    · obtain rfl := heq a ha ha'
      exact ⟨rfl, rfl, (if_pos hnew).trans (if_neg (lt_irrefl _)),
        (if_pos hnew).trans (if_neg (lt_irrefl _)), if_pos hnew⟩
    · exact Int.ofNat_le.mpr ha
    · exact Int.ofNat_lt.mpr ha'

end

section

variable {h h₁ : Heap K} {g : Places} {level : ℤ} {blocks : ℕ → ℕ} {ns : List Addr} {m : ℕ}
  {t : Fanout (Plan K)}

theorem LoadedNodes.children_eq
    (hl : LoadedNodes h h₁ g (level + 1) (t.levels 0) h₁.fresh blocks ns) (ht : t.height ≤ m)
    {i : ℕ} (hi : i < 2 ^ m) :
    placeNodes m 0 ns (t.levels 0) 0 (fun _ => none) i = ns[t.slotOf m i]? := by
  have hlength : ns.length = t.nodes.length := hl.length.trans (t.length_levels 0)
  rw [t.placeNodes_eq _ hlength ((Nat.zero_add _).trans_le ht), Nat.zero_add, Nat.sub_zero,
    Nat.sub_zero, if_pos ⟨Nat.zero_le i, hi⟩]

theorem LoadedNodes.nodeOk
    (hl : LoadedNodes h h₁ g (level + 1) (t.levels 0) h₁.fresh blocks ns) (ht : t.height ≤ m)
    (hblocks : ∀ i, 0 ≤ i → i < 0 + 2 ^ m →
      i / 2 ^ (m - (t.levels 0).getD (t.slotOf m (i - 0)) 0) = blocks (t.slotOf m (i - 0)))
    {h' : Heap K} {g' : Places} (hsame : ∀ a, a < h₁.fresh → SameNode h₁ h' a)
    (hplace : ∀ a, a < h₁.fresh → SamePlace g g' a) (hlevel : h'.level h₁.fresh = level)
    (hnum : h'.numChildren h₁.fresh = 2 ^ m)
    (hchildren : h'.children h₁.fresh = placeNodes m 0 ns (t.levels 0) 0 fun _ => none)
    (hlo : g'.lo h₁.fresh = h.fresh) (hhi : g'.hi h₁.fresh = h₁.fresh) :
    NodeOk h' {a | h.fresh ≤ a ∧ a < h₁.fresh + 1} g' h₁.fresh := by
  have hlength : ns.length = t.nodes.length := hl.length.trans (t.length_levels 0)
  have hget : ∀ i c, h'.child h₁.fresh i = some c → i < 2 ^ m ∧ ns[t.slotOf m i]? = some c := by
    intro i c hi
    have hlt := Heap.child_lt hi
    rw [hnum] at hlt
    rw [Heap.child, hnum, if_pos hlt, hchildren, hl.children_eq ht hlt] at hi
    exact ⟨hlt, hi⟩
  refine ⟨⟨m, hnum⟩, fun i c hi => ?_, fun i j c d hij hi hj hcd => ?_⟩
  · obtain ⟨hlt, hc⟩ := hget i c hi
    have hmem := List.mem_of_getElem? hc
    obtain ⟨hge, hlt'⟩ := hl.mem c hmem
    have hdepth : h'.localDepth c = (t.levels 0).getD (t.slotOf m i) 0 :=
      (hsame c hlt').localDepth.trans (hl.localDepth _ c hc)
    have hp := hplace c hlt'
    refine ⟨⟨hge, hlt'.trans (Nat.lt_succ_self _)⟩, ?_, ?_, hp.parent.trans (hl.parent c hmem), ?_,
      ?_, ?_⟩
    · rw [hlevel, (hsame c hlt').level, hl.level c hmem]
      exact lt_add_one level
    · rw [hdepth, hnum, Nat.log2_two_pow]
      exact t.levels_getD_le ht (t.slotOf_lt m i)
    · rw [Heap.repeats, hdepth, hnum, Nat.log2_two_pow, hp.block, hl.block _ c hc]
      exact hblocks i (Nat.zero_le i) ((Nat.zero_add _).symm ▸ hlt)
    · rw [hlo, hp.lo]
      exact hl.built.lo c hge hlt'
    · rw [hhi, hp.hi]
      exact (hl.built.hi c hge hlt').le
  · obtain ⟨-, hc⟩ := hget i c hi
    obtain ⟨-, hd⟩ := hget j d hj
    rw [(hplace c (hl.mem c (List.mem_of_getElem? hc)).2).hi,
      (hplace d (hl.mem d (List.mem_of_getElem? hd)).2).lo]
    have hmono := t.slotOf_mono m hij.le
    have hne : t.slotOf m i ≠ t.slotOf m j := by
      intro heq
      rw [heq, hd] at hc
      exact hcd (Option.some_inj.mp hc).symm
    obtain ⟨hk, rfl⟩ := List.getElem?_eq_some_iff.mp hc
    obtain ⟨hk', rfl⟩ := List.getElem?_eq_some_iff.mp hd
    exact List.pairwise_iff_getElem.mp hl.sorted _ _ hk hk' (lt_of_le_of_ne hmono hne)

theorem LoadedNodes.model
    (hl : LoadedNodes h h₁ g (level + 1) (t.levels 0) h₁.fresh blocks ns) (ht : t.height ≤ m)
    (hblocks : ∀ i, 0 ≤ i → i < 0 + 2 ^ m →
      i / 2 ^ (m - (t.levels 0).getD (t.slotOf m (i - 0)) 0) = blocks (t.slotOf m (i - 0)))
    (depth p b : ℕ) (model : LinearModel K) :
    ∃ g', LoadedNode h (h₁.newModelNode depth level model (2 ^ m)
      (placeNodes m 0 ns (t.levels 0) 0 fun _ => none)) g' level depth p b := by
  generalize hh' : h₁.newModelNode depth level model (2 ^ m) _ = h'
  let new : Places := ⟨fun _ => p, fun _ => b, fun _ => h.fresh, fun _ => h₁.fresh⟩
  have hne : ∀ a, a < h₁.fresh → a ≠ h₁.fresh := fun a ha => ha.ne
  have hsame : ∀ a, a < h₁.fresh → SameNode h₁ h' a := by
    intro a ha
    subst hh'
    exact ⟨⟨update_of_ne (hne a ha) _ _, update_of_ne (hne a ha) _ _, update_of_ne (hne a ha) _ _,
      update_of_ne (hne a ha) _ _, update_of_ne (hne a ha) _ _⟩, rfl, rfl, rfl⟩
  have hplace : ∀ a, a < h₁.fresh → SamePlace g (g.glue new h₁.fresh) a :=
    fun a ha => Places.glue_left ha
  have hnew : SamePlace new (g.glue new h₁.fresh) h₁.fresh := Places.glue_right le_rfl
  have hfresh : h'.fresh = h₁.fresh + 1 := by
    rw [← hh']
    rfl
  have hlast : h'.fresh - 1 = h₁.fresh := by
    rw [hfresh, Nat.add_sub_cancel]
  have hnum : h'.numChildren h₁.fresh = 2 ^ m := by
    rw [← hh']
    exact update_self _ _ _
  have hchildren : h'.children h₁.fresh = placeNodes m 0 ns (t.levels 0) 0 fun _ => none := by
    rw [← hh']
    exact update_self _ _ _
  have hlevel : h'.level h₁.fresh = level := by
    rw [← hh']
    exact update_self _ _ _
  have hisLeaf : h'.isLeaf h₁.fresh = false := by
    rw [← hh']
    exact update_self _ _ _
  have hnode := hl.nodeOk ht hblocks hsame hplace hlevel hnum hchildren hnew.lo hnew.hi
  refine ⟨g.glue new h₁.fresh, ?_, fun a ha => ?_, ?_, ?_, ?_, ?_, ?_⟩
  · rw [hfresh]
    exact Nat.lt_succ_of_le hl.le
  · exact (hl.same a ha).trans (hsame a (ha.trans_le hl.le))
  · rw [hfresh]
    refine (hl.built.congr (fun a _ ha => hsame a ha) fun a _ ha => hplace a ha).snoc hl.le hisLeaf
      hnode (fun i hi => ?_) hnew.lo hnew.hi
    rw [hnum] at hi
    rw [hchildren, hl.children_eq ht hi, List.getElem?_eq_getElem
      (by rw [hl.length, t.length_levels]; exact t.slotOf_lt m i)]
    rfl
  · rw [hlast, hlevel]
  · rw [hlast, ← hh']
    exact update_self _ _ _
  · rw [hlast]
    exact hnew.parent
  · rw [hlast]
    exact hnew.block

end

mutual

theorem Plan.bulkLoadNode_loaded (level : ℤ) (depth p b : ℕ) (plan : Plan K) (h : Heap K) :
    ∃ g, LoadedNode h (plan.bulkLoadNode level depth h) g level depth p b := by
  match plan with
  | .data limits => exact loadedNode_data h level depth p b limits
  | .model model moreLevels children =>
    have hheight : children.height ≤ children.height + moreLevels := Nat.le_add_right _ _
    obtain ⟨blocks, hblocks⟩ := children.exists_blocks hheight (dvd_zero _)
    obtain ⟨g, hg⟩ := children.bulkLoadNodes_loaded (level + 1) 0
      (children.bulkLoadNodes (level + 1) 0 h).1.fresh blocks h
    exact hg.model hheight hblocks depth p b model

theorem Fanout.bulkLoadNodes_loaded (level : ℤ) (depth p : ℕ) (blocks : ℕ → ℕ)
    (t : Fanout (Plan K)) (h : Heap K) :
    ∃ g, LoadedNodes h (t.bulkLoadNodes level depth h).1 g level (t.levels depth) p blocks
      (t.bulkLoadNodes level depth h).2 := by
  match t with
  | .used node =>
    obtain ⟨g, hg⟩ := node.bulkLoadNode_loaded level depth p (blocks 0) h
    exact ⟨g, hg.nodes⟩
  | .split left right =>
    obtain ⟨g, hg⟩ := left.bulkLoadNodes_loaded level (depth + 1) p blocks h
    obtain ⟨g', hg'⟩ := right.bulkLoadNodes_loaded level (depth + 1) p
      (fun k => blocks ((left.bulkLoadNodes level (depth + 1) h).2.length + k))
      (left.bulkLoadNodes level (depth + 1) h).1
    exact ⟨_, hg.append hg'⟩

end

end LearnedIndexFramework.Alexol
