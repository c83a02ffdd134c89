import LearnedIndexFramework.Alexol.Built

/-! An index that is made new: by the constructor, or by a bulk load. -/

namespace LearnedIndexFramework.Alexol

open Lib Function

variable {K : Type}

/-! ### Links -/

theorem Heap.linkAllDataNodes_eq (before : Option Addr) (nodes : List Addr) (h : Heap K)
    (hnodup : nodes.Nodup) (hbefore : ∀ a ∈ before, a ∉ nodes)
    (hnext : ∀ a ∈ nodes, h.nextLeaf a = none) (hprev : ∀ a ∈ nodes, h.prevLeaf a = none) :
    ∃ next prev, linkAllDataNodes before nodes h = { h with nextLeaf := next, prevLeaf := prev } ∧
      Linked next prev before nodes none ∧
      (∀ a ∈ before, next a = nodes.head?.or (h.nextLeaf a)) ∧
      (∀ a, a ∉ before → a ∉ nodes → next a = h.nextLeaf a) ∧
      ∀ a, a ∉ nodes → prev a = h.prevLeaf a := by
  induction nodes generalizing before h with
  | nil => exact ⟨_, _, rfl, trivial, fun _ _ => rfl, fun _ _ _ => rfl, fun _ _ => rfl⟩
  | cons node nodes ih =>
    rw [List.nodup_cons] at hnodup
    rw [List.forall_mem_cons] at hnext hprev
    cases before with
    | none =>
      obtain ⟨next, prev, heq, hlinked, hnext', hother, hprev'⟩ :=
        ih (some node) h hnodup.2 (by simpa using hnodup.1) hnext.2 hprev.2
      refine ⟨next, prev, heq, ⟨?_, ?_, hlinked⟩, by simp, fun a _ ha => ?_, fun a ha => ?_⟩
      · rw [hprev' node hnodup.1, hprev.1]
      · rw [hnext' node rfl, hnext.1]
      · rw [List.mem_cons, not_or] at ha
        exact hother a (fun hmem => ha.1 (Option.some_inj.mp hmem).symm) ha.2
      · rw [List.mem_cons, not_or] at ha
        exact hprev' a ha.2
    | some p =>
      have hp := hbefore p rfl
      rw [List.mem_cons, not_or] at hp
      have hnext₁ : ∀ a ∈ nodes, update h.nextLeaf p (some node) a = none := by
        intro a ha
        rw [update_of_ne (ne_of_mem_of_not_mem ha hp.2)]
        exact hnext.2 a ha
      have hprev₁ : ∀ a ∈ nodes, update h.prevLeaf node (some p) a = none := by
        intro a ha
        rw [update_of_ne (ne_of_mem_of_not_mem ha hnodup.1)]
        exact hprev.2 a ha
      obtain ⟨next, prev, heq, hlinked, hnext', hother, hprev'⟩ :=
        ih (some node) { h with
          nextLeaf := update h.nextLeaf p (some node)
          prevLeaf := update h.prevLeaf node (some p) } hnodup.2 (by simpa using hnodup.1)
          hnext₁ hprev₁
      refine ⟨next, prev, heq, ⟨?_, ?_, hlinked⟩, fun a ha => ?_, fun a hap ha => ?_,
        fun a ha => ?_⟩
      · rw [hprev' node hnodup.1]
        exact update_self _ _ _
      · rw [hnext' node rfl]
        exact congrArg _ ((update_of_ne (Ne.symm hp.1) _ _).trans hnext.1)
      · obtain rfl := Option.some_inj.mp ha
        rw [hother p (fun hmem => hp.1 (Option.some_inj.mp hmem).symm) hp.2]
        exact update_self _ _ _
      · rw [List.mem_cons, not_or] at ha
        rw [hother a (fun hmem => ha.1 (Option.some_inj.mp hmem).symm) ha.2]
        exact update_of_ne (fun heq => hap (congrArg some heq.symm)) _ _
      · rw [List.mem_cons, not_or] at ha
        rw [hprev' a ha.2]
        exact update_of_ne ha.1 _ _

/-! ### The superroot -/

section Superroot

variable {s : Index K} {g : Places} {first : ℕ}

def newLeaves (h : Heap K) (first : ℕ) : List Addr :=
  (List.range' first (h.fresh - first)).filter fun a => h.isLeaf a

theorem mem_newLeaves {h : Heap K} {a : Addr} (hle : first ≤ h.fresh) :
    a ∈ newLeaves h first ↔ (first ≤ a ∧ a < h.fresh) ∧ h.isLeaf a = true := by
  rw [newLeaves, List.mem_filter, List.mem_range'_1, Nat.add_sub_cancel' hle]

structure Topped (s s' : Index K) : Prop where
  same : ∀ a, a < s.fresh → SameShape s.toHeap s'.toHeap a
  fresh : s'.fresh = s.fresh + 1
  rootNode : s'.rootNode = s.rootNode
  superroot : s'.superroot = s.fresh
  scheduled : s'.scheduled = s.scheduled
  locked : ∀ a, a < s.fresh → s'.locked a = s.locked a
  isLeaf : s'.isLeaf s.fresh = false
  numChildren : s'.numChildren s.fresh = 1
  child : s'.child s.fresh 0 = some s.rootNode
  level : s'.level s.fresh = s.level s.rootNode - 1

theorem Index.createSuperroot_topped (hrlt : s.rootNode < s.fresh) (next prev : Addr → Option Addr) :
    Topped s { s.createSuperroot with nextLeaf := next, prevLeaf := prev } := by
  have hne : ∀ a, a < s.fresh → a ≠ s.fresh := fun a ha => ha.ne
  have hnum : s.createSuperroot.numChildren s.fresh = 1 := update_self _ _ _
  refine
    { same := fun a ha => ⟨update_of_ne (hne a ha) _ _, update_of_ne (hne a ha) _ _,
        (update_of_ne (hne a ha) _ _).trans (update_of_ne (hne a ha) _ _),
        update_of_ne (hne a ha) _ _,
        (update_of_ne (hne a ha) _ _).trans (update_of_ne (hne a ha) _ _)⟩
      fresh := rfl
      rootNode := rfl
      superroot := rfl
      scheduled := rfl
      locked := fun _ _ => rfl
      isLeaf := update_self _ _ _
      numChildren := hnum
      child := ?_
      level := ?_ }
  · change s.createSuperroot.child s.fresh 0 = _
    rw [Heap.child, hnum, if_pos Nat.one_pos]
    exact (congrFun (update_self _ _ _) 0).trans (update_self _ _ _)
  · refine (update_self _ _ _).trans ?_
    exact congrArg (· - 1) (update_of_ne (hne _ hrlt) _ _)

def Places.top (g : Places) (first stop : ℕ) : Places :=
  { parent := g.parent
    block := g.block
    lo := fun a => if a = stop then first else if first ≤ a ∧ a < stop then g.lo a else 0
    hi := fun a => if a = stop then stop else if first ≤ a ∧ a < stop then g.hi a else 0 }

theorem Places.top_place (g : Places) {stop a : ℕ} (ha : first ≤ a) (ha' : a < stop) :
    SamePlace g (g.top first stop) a :=
  ⟨rfl, rfl, (if_neg ha'.ne).trans (if_pos ⟨ha, ha'⟩), (if_neg ha'.ne).trans (if_pos ⟨ha, ha'⟩)⟩

namespace Topped

variable {s' : Index K} {a : Addr} (ht : Topped s s')

include ht

theorem cases (ha : first ≤ a ∧ a < s'.fresh) : a = s.fresh ∨ first ≤ a ∧ a < s.fresh := by
  rw [ht.fresh] at ha
  exact (Nat.lt_succ_iff_lt_or_eq.mp ha.2).symm.imp_right fun hlt => ⟨ha.1, hlt⟩

theorem subset : {a | first ≤ a ∧ a < s.fresh} ⊆ {a | first ≤ a ∧ a < s'.fresh} :=
  fun _ ha => ⟨ha.1, ht.fresh ▸ ha.2.trans (Nat.lt_succ_self _)⟩

theorem one_child {i c : ℕ} (hi : s'.child s.fresh i = some c) : c = s.rootNode := by
  have hlt := Heap.child_lt hi
  rw [ht.numChildren, Nat.lt_one_iff] at hlt
  subst hlt
  exact Option.some_inj.mp (hi.symm.trans ht.child)

theorem nodeOk (hb : Built s.toHeap g first s.fresh) (hrge : first ≤ s.rootNode)
    (hrlt : s.rootNode < s.fresh) (hparent : g.parent s.rootNode = s.fresh)
    (hblock : g.block s.rootNode = 0) (hdepth : s.localDepth s.rootNode = 0)
    (ha : first ≤ a ∧ a < s'.fresh) (hf : s'.isLeaf a = false) :
    NodeOk s'.toHeap {a | first ≤ a ∧ a < s'.fresh} (g.top first s.fresh) a := by
  rcases ht.cases ha with rfl | ⟨ha, ha'⟩
  · refine .single ht.numChildren fun c hc => ?_
    obtain rfl := ht.one_child hc
    have hplace := g.top_place hrge hrlt
    refine ⟨ht.subset ⟨hrge, hrlt⟩, ?_, ?_, hparent, ?_, ?_, ?_⟩
    · rw [ht.level, (ht.same _ hrlt).level]
      exact sub_one_lt _
    · rw [(ht.same _ hrlt).localDepth, hdepth]
      exact Nat.zero_le _
    · rw [Nat.zero_div]
      exact hblock.symm
    · rw [hplace.lo]
      exact (if_pos rfl).trans_le (hb.lo _ hrge hrlt)
    · rw [hplace.hi]
      exact (hb.hi _ hrge hrlt).le.trans (if_pos rfl).ge
  · rw [(ht.same a ha').isLeaf] at hf
    exact (hb.node a ha ha' hf).congr_of_mem ⟨ha, ha'⟩ ht.subset (fun a ha => ht.same a ha.2)
      fun a ha => g.top_place ha.1 ha.2

theorem readable (hb : Built s.toHeap g first s.fresh) :
    Readable s'.toHeap {a | first ≤ a ∧ a < s'.fresh} := by
  intro a ha hf key
  rcases ht.cases ha with rfl | ⟨ha, ha'⟩
  · have hlt := Heap.bucketID_lt key (ht.numChildren.symm ▸ Nat.one_pos : 0 < s'.numChildren s.fresh)
    rw [ht.numChildren, Nat.lt_one_iff] at hlt
    rw [hlt, ht.child]
    rfl
  · have hsame := ht.same a ha'
    rw [hsame.isLeaf] at hf
    have hpos := (hb.node a ha ha' hf).numChildren_pos
    rw [← hsame.numChildren] at hpos
    have hlt := Heap.bucketID_lt key hpos
    rw [hsame.numChildren] at hlt
    rw [hsame.child, Heap.child, if_pos hlt]
    exact hb.full a ha ha' hf _ hlt

end Topped

theorem Built.valid (hb : Built s.toHeap g first s.fresh) (hlt : first < s.fresh)
    (hroot : s.rootNode = s.fresh - 1) (hparent : g.parent s.rootNode = s.fresh)
    (hblock : g.block s.rootNode = 0) (hdepth : s.localDepth s.rootNode = 0)
    (hscheduled : ∀ a ∈ s.scheduled, a < first) {next prev : Addr → Option Addr}
    (hlinked : Linked next prev none (newLeaves s.toHeap first) none) :
    Valid { s.createSuperroot with nextLeaf := next, prevLeaf := prev } := by
  have hrge : first ≤ s.rootNode := hroot ▸ Nat.le_sub_one_of_lt hlt
  have hrlt : s.rootNode < s.fresh := hroot ▸ Nat.sub_one_lt_of_lt hlt
  have ht := Index.createSuperroot_topped hrlt next prev
  have hlinked' : Linked { s.createSuperroot with nextLeaf := next, prevLeaf := prev }.nextLeaf
      { s.createSuperroot with nextLeaf := next, prevLeaf := prev }.prevLeaf none
      (newLeaves s.toHeap first) none := hlinked
  generalize ({ s.createSuperroot with nextLeaf := next, prevLeaf := prev } : Index K) = s'
    at ht hlinked' ⊢
  have hleaf : ∀ a ∈ newLeaves s.toHeap first, (first ≤ a ∧ a < s.fresh) ∧ s.isLeaf a = true :=
    fun a ha => (mem_newLeaves hlt.le).mp ha
  refine ⟨{a | first ≤ a ∧ a < s'.fresh}, g.top first s.fresh, newLeaves s.toHeap first,
    { node := fun a ha hf => ht.nodeOk hb hrge hrlt hparent hblock hdepth ha hf
      lt_fresh := fun a ha => ha.2
      lo_le_hi := fun a => ?_
      superroot_mem := ?_
      superroot_isLeaf := ht.superroot ▸ ht.isLeaf
      superroot_numChildren := ht.superroot ▸ ht.numChildren
      superroot_child := by rw [ht.superroot, ht.rootNode, ht.child]
      superroot_level := by rw [ht.superroot, ht.rootNode, ht.level, (ht.same _ hrlt).level]
      top := fun a ha hf i hi => ?_
      linked := hlinked'
      mem_chain := fun a ha hl => ?_
      leaf := fun a ha => ?_
      scheduled_lt := fun a ha => ?_
      sorted := ?_ }, ht.readable hb, fun a ha => ?_⟩
  · by_cases hfa : a = s.fresh
    · subst hfa
      exact (if_pos rfl).trans_le ((Int.ofNat_le.mpr hlt.le).trans (if_pos rfl).ge)
    · by_cases ha : first ≤ a ∧ a < s.fresh
      · rw [(g.top_place ha.1 ha.2).lo, (g.top_place ha.1 ha.2).hi]
        exact hb.lo_le_hi a ha.1 ha.2
      · exact ((if_neg hfa).trans (if_neg ha)).trans_le ((if_neg hfa).trans (if_neg ha)).ge
  · rw [ht.superroot]
    exact ⟨hlt.le, ht.fresh ▸ Nat.lt_succ_self _⟩
  · rw [ht.superroot] at hi
    rcases ht.cases ha with rfl | ⟨ha, ha'⟩
    · exact hrlt.ne (ht.one_child hi).symm
    · rw [(ht.same a ha').isLeaf] at hf
      rw [(ht.same a ha').child] at hi
      exact lt_irrefl _ ((hb.node a ha ha' hf).pointer i _ hi).mem.2
  · rcases ht.cases ha with rfl | ⟨ha, ha'⟩
    · rw [ht.isLeaf] at hl
      cases hl
    · rw [(ht.same a ha').isLeaf] at hl
      exact (mem_newLeaves hlt.le).mpr ⟨⟨ha, ha'⟩, hl⟩
  · obtain ⟨⟨hge, ha'⟩, hl⟩ := hleaf a ha
    refine ⟨(ht.same a ha').isLeaf.trans hl, ht.fresh ▸ ha'.trans (Nat.lt_succ_self _),
      fun hmem => ?_⟩
    rw [ht.scheduled] at hmem
    exact absurd (hscheduled a hmem) (not_lt.mpr hge)
  · rw [ht.scheduled] at ha
    exact ht.fresh ▸ (hscheduled a ha).trans (hlt.trans (Nat.lt_succ_self _))
  · refine ((List.pairwise_lt_range' 1 Nat.one_pos).filter _).imp_of_mem fun {a b} ha hb' hab => ?_
    obtain ⟨⟨hge, ha'⟩, hl⟩ := hleaf a ha
    obtain ⟨⟨hge', hb''⟩, hl'⟩ := hleaf b hb'
    rw [(g.top_place hge ha').hi, (g.top_place hge' hb'').lo, (hb.leaf a hge ha' hl).hi,
      (hb.leaf b hge' hb'' hl').lo]
    exact Int.ofNat_lt.mpr hab
  · obtain ⟨⟨hge, ha'⟩, hl⟩ := hleaf a ha
    rw [ht.locked a ha']
    exact (hb.leaf a hge ha' hl).locked

end Superroot

theorem Index.new_valid (maxFanout : ℕ) (limits : Limits K) (model : LinearModel K) :
    Valid (new maxFanout limits model) := by
  rw [new]
  generalize hs : (⟨_, _, _, _, _, _, _, _⟩ : Index K) = s
  have hb : Built s.toHeap ⟨fun _ => 1, fun _ => 0, fun a => a, fun a => a⟩ 0 s.fresh := by
    subst hs
    refine ⟨fun _ _ _ hf => absurd hf Bool.noConfusion,
      fun _ _ _ hf => absurd hf Bool.noConfusion, fun a _ _ _ => ?_,
      fun a _ _ => Int.natCast_nonneg a, fun a _ ha => Int.ofNat_lt.mpr ha, fun a _ _ => le_rfl⟩
    exact ⟨rfl, rfl, rfl, rfl, rfl⟩
  have hlinked : Linked s.nextLeaf s.prevLeaf none (newLeaves s.toHeap 0) none := by
    subst hs
    exact ⟨rfl, rfl, trivial⟩
  have hvalid := hb.valid (by subst hs; exact Nat.one_pos) (by subst hs; rfl) (by subst hs; rfl)
    (by subst hs; rfl) (by subst hs; rfl)
    (by subst hs; exact fun _ ha => absurd ha List.not_mem_nil) hlinked
  exact hvalid

theorem Index.bulkLoad_valid (s : Index K) (hs : Valid s) (numKeys : ℤ) (plan : Plan K) :
    Valid (s.bulkLoad numKeys plan) := by
  rw [bulkLoad]
  split
  case isTrue => exact hs
  case isFalse =>
    obtain ⟨T, g, chain, h, -, -⟩ := hs
    obtain ⟨g', hg⟩ := plan.bulkLoadNode_loaded 0 0
      (plan.bulkLoadNode 0 0 s.toHeap).fresh 0 s.toHeap
    generalize plan.bulkLoadNode 0 0 s.toHeap = h₁ at hg ⊢
    have hleaf : ∀ a ∈ newLeaves h₁ s.fresh, NewLeaf h₁ g' a := by
      intro a ha
      obtain ⟨⟨hge, hlt⟩, hl⟩ := (mem_newLeaves hg.lt.le).mp ha
      exact hg.built.leaf a hge hlt hl
    obtain ⟨next, prev, hlink, hlinked, -⟩ := Heap.linkAllDataNodes_eq none
      (newLeaves h₁ s.fresh)
      ({ s with toHeap := h₁, rootNode := h₁.fresh - 1, numKeys } : Index K).createSuperroot.toHeap
      (List.Nodup.filter _ List.nodup_range') (fun _ ha => absurd ha (Option.not_mem_none _))
      (fun a ha => (hleaf a ha).nextLeaf) fun a ha => (hleaf a ha).prevLeaf
    have hvalid := hg.built.valid
      (s := { s with toHeap := h₁, rootNode := h₁.fresh - 1, numKeys }) hg.lt rfl hg.parent hg.block
      hg.localDepth h.scheduled_lt hlinked
    rw [newLeaves] at hlink
    simp only [hlink]
    exact hvalid

end LearnedIndexFramework.Alexol
