import LearnedIndexFramework.Alexol.Layout
import Mathlib.Tactic.Linarith

/-! New nodes in the slots of an old one: the common part of all replacements and splits. -/

namespace LearnedIndexFramework.Alexol

open Lib Function

variable {K : Type}

structure Frame (h h' : Heap K) (p : Addr) : Prop where
  fresh : h.fresh ≤ h'.fresh
  isLeaf : ∀ a, a < h.fresh → h'.isLeaf a = h.isLeaf a
  localDepth : ∀ a, a < h.fresh → h'.localDepth a = h.localDepth a
  level : ∀ a, a < h.fresh → h'.level a = h.level a
  model : ∀ a, a < h.fresh → h'.model a = h.model a
  numChildren : ∀ a, a < h.fresh → h'.numChildren a = h.numChildren a
  children : ∀ a, a < h.fresh → a ≠ p → h'.children a = h.children a

namespace Frame

variable {h h' : Heap K} {p a c : Addr} {i : ℕ}

theorem child (f : Frame h h' p) (ha : a < h.fresh) (hne : a ≠ p) : h'.child a i = h.child a i := by
  rw [Heap.child, Heap.child, f.numChildren a ha, f.children a ha hne]

theorem repeats (f : Frame h h' p) (ha : a < h.fresh) (hc : c < h.fresh) :
    h'.repeats a c = h.repeats a c := by
  rw [Heap.repeats, Heap.repeats, f.numChildren a ha, f.localDepth c hc]

theorem bucketID (f : Frame h h' p) (ha : a < h.fresh) (key : K) :
    h'.bucketID a key = h.bucketID a key := by
  rw [Heap.bucketID, Heap.bucketID, f.numChildren a ha, f.model a ha]

end Frame

structure Places.Spread (g g' : Places) (w : ℤ) (fresh : ℕ) (x : Addr) : Prop where
  pos : 0 < w
  lo : ∀ a, a < fresh → g'.lo a = w * g.lo a
  hi : ∀ a, a < fresh → g'.hi a = w * g.hi a + (w - 1)
  parent : ∀ a, a < fresh → g.parent a ≠ x → g'.parent a = g.parent a
  block : ∀ a, a < fresh → g.parent a ≠ x → g'.block a = g.block a

namespace Places.Spread

variable {g g' : Places} {w : ℤ} {fresh : ℕ} {x a c : Addr}

theorem lt (hs : Spread g g' w fresh x) (ha : a < fresh) (hc : c < fresh) (hlt : g.hi a < g.lo c) :
    g'.hi a < g'.lo c := by
  rw [hs.hi a ha, hs.lo c hc]
  have hmul := Int.mul_le_mul_of_nonneg_left (show g.hi a + 1 ≤ g.lo c from hlt) hs.pos.le
  linarith

theorem lo_le (hs : Spread g g' w fresh x) (ha : a < fresh) (hc : c < fresh)
    (hle : g.lo a ≤ g.lo c) : g'.lo a ≤ g'.lo c := by
  rw [hs.lo a ha, hs.lo c hc]
  exact Int.mul_le_mul_of_nonneg_left hle hs.pos.le

theorem hi_le (hs : Spread g g' w fresh x) (ha : a < fresh) (hc : c < fresh)
    (hle : g.hi a ≤ g.hi c) : g'.hi a ≤ g'.hi c := by
  rw [hs.hi a ha, hs.hi c hc]
  have hmul := Int.mul_le_mul_of_nonneg_left hle hs.pos.le
  linarith

end Places.Spread

def Places.extend (g : Places) (w : ℤ) (fresh : ℕ) (x y : Addr) (new : Places) : Places where
  parent a := if a < fresh then if g.parent a = x then y else g.parent a else new.parent a
  block a := if a < fresh then g.block a else new.block a
  lo a := if a < fresh then w * g.lo a else new.lo a
  hi a := if a < fresh then w * g.hi a + (w - 1) else new.hi a

section Extend

variable {g new : Places} {w : ℤ} {fresh : ℕ} {x y : Addr}

theorem Places.extend_spread (hw : 0 < w) : g.Spread (g.extend w fresh x y new) w fresh x where
  pos := hw
  lo _ ha := if_pos ha
  hi _ ha := if_pos ha
  parent _ ha hx := (if_pos ha).trans (if_neg hx)
  block _ ha _ := if_pos ha

theorem Places.extend_lo_le_hi (hw : 0 < w) (hg : ∀ a, g.lo a ≤ g.hi a)
    (hnew : ∀ a, fresh ≤ a → new.lo a ≤ new.hi a) (a : Addr) :
    (g.extend w fresh x y new).lo a ≤ (g.extend w fresh x y new).hi a := by
  simp only [Places.extend]
  split
  case isTrue =>
    have hmul := Int.mul_le_mul_of_nonneg_left (hg a) hw.le
    linarith
  case isFalse hge => exact hnew a (not_lt.mp hge)

end Extend

structure InSlot (h : Heap K) (g : Places) (x p : Addr) (i : ℕ) (c : Addr) : Prop where
  level : h.level p < h.level c
  depth : h.localDepth c ≤ Nat.log2 (h.numChildren p)
  parent : g.parent c = p
  block : i / h.repeats p c = g.block c
  lo : g.lo x ≤ g.lo c
  hi : g.hi c ≤ g.hi x

structure Slots (h h' : Heap K) (N : Set Addr) (g' : Places) (x p : Addr) (b : ℕ) : Prop where
  out : ∀ i, i / h.repeats p x ≠ b / h.repeats p x → h'.children p i = h.children p i
  new : ∀ i, i / h.repeats p x = b / h.repeats p x → ∃ c ∈ N, h'.children p i = some c
  slot : ∀ i c, i / h.repeats p x = b / h.repeats p x → h'.child p i = some c →
    InSlot h' g' x p i c
  order : ∀ i j c d, i / h.repeats p x = b / h.repeats p x →
    j / h.repeats p x = b / h.repeats p x → i < j → h'.child p i = some c →
    h'.child p j = some d → c ≠ d → g'.hi c < g'.lo d

theorem Slots.single {h h' : Heap K} {N : Set Addr} {g' : Places} {x y p : Addr} {b : ℕ}
    (hchildren : h'.children p = fun i =>
      if h.startBucketID p x b ≤ i ∧ i < h.startBucketID p x b + h.repeats p x then some y
      else h.children p i)
    (hy : y ∈ N) (hnum : h'.numChildren p = h.numChildren p)
    (hdepth : h'.localDepth y = h.localDepth x)
    (hle : h.localDepth x ≤ Nat.log2 (h.numChildren p)) (hlevel : h'.level p < h'.level y)
    (hparent : g'.parent y = p) (hblock : g'.block y = b / h.repeats p x)
    (hlo : g'.lo x ≤ g'.lo y) (hhi : g'.hi y ≤ g'.hi x) : Slots h h' N g' x p b := by
  have hslots : ∀ i, h.startBucketID p x b ≤ i ∧ i < h.startBucketID p x b + h.repeats p x ↔
      i / h.repeats p x = b / h.repeats p x := fun i => mem_block_iff (h.repeats_pos p x)
  have hin : ∀ i, i / h.repeats p x = b / h.repeats p x → h'.children p i = some y := by
    intro i hi
    rw [hchildren]
    exact if_pos ((hslots i).mpr hi)
  have hy' : ∀ i c, i / h.repeats p x = b / h.repeats p x → h'.child p i = some c → c = y := by
    intro i c hi hchild
    rw [Heap.child, if_pos (Heap.child_lt hchild), hin i hi] at hchild
    exact (Option.some_inj.mp hchild).symm
  refine ⟨fun i hi => ?_, fun i hi => ⟨y, hy, hin i hi⟩, fun i c hi hchild => ?_, ?_⟩
  · rw [hchildren]
    exact if_neg (mt (hslots i).mp hi)
  · rw [hy' i c hi hchild]
    refine ⟨hlevel, ?_, hparent, ?_, hlo, hhi⟩
    · rwa [hdepth, hnum]
    · rw [Heap.repeats, hnum, hdepth, hblock]
      exact hi
  · intro i j c d hi hj _ hc hd hcd
    exact absurd ((hy' i c hi hc).trans (hy' j d hj hd).symm) hcd

section

variable {s s' : Index K} {T N : Set Addr} {g g' : Places} {chain chain' : List Addr} {w : ℤ}
  {x p a c : Addr} {b i : ℕ}

theorem Layout.pointer_unique (h : Layout s T g chain) (hp : Layout.IsParent s T x p b) (ha : a ∈ T)
    (hleaf : s.isLeaf a = false) (hchild : s.child a i = some x) :
    a = p ∧ i / s.repeats p x = b / s.repeats p x := by
  have hold := h.pointer ha hleaf hchild
  have hpar := h.pointer hp.mem hp.isLeaf hp.child
  have heq : a = p := hold.parent.symm.trans hpar.parent
  subst heq
  exact ⟨rfl, hold.block.trans hpar.block.symm⟩

theorem Layout.mem_lt (h : Layout s T g chain) (ha : a ∈ T) : a < s.fresh := h.lt_fresh a ha

theorem Layout.keep_pointer (h : Layout s T g chain) (f : Frame s.toHeap s'.toHeap p)
    (hs : g.Spread g' w s.fresh x) (ha : a ∈ T) (hx : a ≠ x)
    (hptr : PointerOk s.toHeap T g a i c) (hcx : c ≠ x) :
    PointerOk s'.toHeap (T \ {x} ∪ N) g' a i c := by
  have hlt := h.mem_lt ha
  have hc := h.mem_lt hptr.mem
  have hpar : g.parent c ≠ x := hptr.parent ▸ hx
  refine ⟨.inl ⟨hptr.mem, hcx⟩, ?_, ?_, ?_, ?_, hs.lo_le hlt hc hptr.lo, hs.hi_le hc hlt hptr.hi⟩
  · rw [f.level a hlt, f.level c hc]
    exact hptr.level
  · rw [f.localDepth c hc, f.numChildren a hlt]
    exact hptr.depth
  · rw [hs.parent c hc hpar]
    exact hptr.parent
  · rw [f.repeats hlt hc, hs.block c hc hpar]
    exact hptr.block

theorem Layout.keep_node (h : Layout s T g chain) (hp : Layout.IsParent s T x p b)
    (f : Frame s.toHeap s'.toHeap p) (hs : g.Spread g' w s.fresh x) (ha : a ∈ T)
    (hleaf : s.isLeaf a = false) (hne : a ≠ p) (hx : a ≠ x) :
    NodeOk s'.toHeap (T \ {x} ∪ N) g' a := by
  have hok := h.node a ha hleaf
  have hlt := h.mem_lt ha
  refine ⟨?_, fun i c hchild => ?_, fun i j c d hij hi hj hcd => ?_⟩
  · rw [f.numChildren a hlt]
    exact hok.size
  · rw [f.child hlt hne] at hchild
    refine h.keep_pointer f hs ha hx (hok.pointer i c hchild) ?_
    rintro rfl
    exact hne (h.pointer_unique hp ha hleaf hchild).1
  · rw [f.child hlt hne] at hi hj
    exact hs.lt (h.mem_lt (hok.pointer i c hi).mem) (h.mem_lt (hok.pointer j d hj).mem)
      (hok.order i j c d hij hi hj hcd)

theorem Layout.graft_parent (h : Layout s T g chain) (hp : Layout.IsParent s T x p b)
    (f : Frame s.toHeap s'.toHeap p) (hs : g.Spread g' w s.fresh x)
    (hslots : Slots s.toHeap s'.toHeap N g' x p b) (hpx : p ≠ x) :
    NodeOk s'.toHeap (T \ {x} ∪ N) g' p := by
  have hok := h.node p hp.mem hp.isLeaf
  have hlt := h.mem_lt hp.mem
  have hxptr := h.pointer hp.mem hp.isLeaf hp.child
  have hx := h.mem_lt hxptr.mem
  have hr := s.repeats_pos p x
  have hold : ∀ i c, i / s.repeats p x ≠ b / s.repeats p x → s'.child p i = some c →
      s.child p i = some c ∧ c ≠ x := by
    intro i c hout hchild
    have hsame : s.child p i = some c := by
      rw [Heap.child, f.numChildren p hlt, hslots.out i hout] at hchild
      exact hchild
    refine ⟨hsame, ?_⟩
    rintro rfl
    exact hout (h.pointer_unique hp hp.mem hp.isLeaf hsame).2
  refine ⟨?_, fun i c hchild => ?_, fun i j c d hij hi hj hcd => ?_⟩
  · rw [f.numChildren p hlt]
    exact hok.size
  · by_cases hin : i / s.repeats p x = b / s.repeats p x
    case pos =>
      have hslot := hslots.slot i c hin hchild
      obtain ⟨c', hc', hnew⟩ := hslots.new i hin
      have heq : c' = c := by
        rw [Heap.child, if_pos (Heap.child_lt hchild), hnew] at hchild
        exact Option.some_inj.mp hchild
      exact ⟨.inr (heq ▸ hc'), hslot.level, hslot.depth, hslot.parent, hslot.block,
        (hs.lo_le hlt hx hxptr.lo).trans hslot.lo, hslot.hi.trans (hs.hi_le hx hlt hxptr.hi)⟩
    case neg =>
      obtain ⟨hsame, hcx⟩ := hold i c hin hchild
      exact h.keep_pointer f hs hp.mem hpx (hok.pointer i c hsame) hcx
  · have hdiv := Nat.div_le_div_right (c := s.repeats p x) hij.le
    by_cases hini : i / s.repeats p x = b / s.repeats p x
    case pos =>
      by_cases hinj : j / s.repeats p x = b / s.repeats p x
      case pos => exact hslots.order i j c d hini hinj hij hi hj hcd
      case neg =>
        obtain ⟨hsame, hdx⟩ := hold j d hinj hj
        have hbj : b < j := Nat.lt_of_div_lt_div (c := s.repeats p x) (by omega)
        have hlt' := hok.order b j x d hbj hp.child hsame hdx.symm
        exact (hslots.slot i c hini hi).hi.trans_lt
          (hs.lt hx (h.mem_lt (hok.pointer j d hsame).mem) hlt')
    case neg =>
      obtain ⟨hsame, hcx⟩ := hold i c hini hi
      have hc := h.mem_lt (hok.pointer i c hsame).mem
      by_cases hinj : j / s.repeats p x = b / s.repeats p x
      case pos =>
        have hib : i < b := Nat.lt_of_div_lt_div (c := s.repeats p x) (by omega)
        have hlt' := hok.order i b c x hib hsame hp.child hcx
        exact (hs.lt hc hx hlt').trans_le (hslots.slot j d hinj hj).lo
      case neg =>
        obtain ⟨hsame', hdx⟩ := hold j d hinj hj
        exact hs.lt hc (h.mem_lt (hok.pointer j d hsame').mem)
          (hok.order i j c d hij hsame hsame' hcd)

theorem Layout.graft (h : Layout s T g chain) (hp : Layout.IsParent s T x p b)
    (f : Frame s.toHeap s'.toHeap p) (hs : g.Spread g' w s.fresh x)
    (hslots : Slots s.toHeap s'.toHeap N g' x p b)
    (hN : ∀ a ∈ N, s.fresh ≤ a ∧ a < s'.fresh)
    (hnew : ∀ a ∈ N, s'.isLeaf a = false → NodeOk s'.toHeap (T \ {x} ∪ N) g' a)
    (hlohi : ∀ a, g'.lo a ≤ g'.hi a)
    (hsuper : s'.superroot = s.superroot)
    (hroot : s'.child s.superroot 0 = some s'.rootNode)
    (hlevel : s'.level s.superroot = s'.level s'.rootNode - 1)
    (htop : ∀ a ∈ N, s'.isLeaf a = false → ∀ i, s'.child a i ≠ some s.superroot)
    (hlinked : Linked s'.nextLeaf s'.prevLeaf none chain' none)
    (hchain : ∀ a ∈ chain, a ≠ x → a ∈ chain')
    (hchainN : ∀ a ∈ N, s'.isLeaf a = true → a ∈ chain')
    (hleaf : ∀ a ∈ chain', LeafOk s' a)
    (hscheduled : ∀ a ∈ s'.scheduled, a < s'.fresh)
    (hsorted : chain'.Pairwise fun a b => g'.hi a < g'.lo b) :
    Layout s' (T \ {x} ∪ N) g' chain' := by
  have hxptr := h.pointer hp.mem hp.isLeaf hp.child
  have hpx : p ≠ x := by
    rintro rfl
    exact lt_irrefl _ hxptr.level
  have hsx : s.superroot ≠ x := by
    rintro rfl
    exact h.top p hp.mem hp.isLeaf b hp.child
  have hslt := h.mem_lt h.superroot_mem
  refine
    { node := ?_
      lt_fresh := ?_
      lo_le_hi := hlohi
      superroot_mem := hsuper ▸ .inl ⟨h.superroot_mem, hsx⟩
      superroot_isLeaf := hsuper ▸ (f.isLeaf _ hslt).trans h.superroot_isLeaf
      superroot_numChildren := hsuper ▸ (f.numChildren _ hslt).trans h.superroot_numChildren
      superroot_child := hsuper ▸ hroot
      superroot_level := hsuper ▸ hlevel
      top := ?_
      linked := hlinked
      mem_chain := ?_
      leaf := hleaf
      scheduled_lt := hscheduled
      sorted := hsorted }
  · rintro a (⟨ha, hax⟩ | ha) hmodel
    · rw [f.isLeaf a (h.mem_lt ha)] at hmodel
      by_cases hap : a = p
      · exact hap ▸ h.graft_parent hp f hs hslots hpx
      · exact h.keep_node hp f hs ha hmodel hap hax
    · exact hnew a ha hmodel
  · rintro a (⟨ha, -⟩ | ha)
    · exact (h.mem_lt ha).trans_le f.fresh
    · exact (hN a ha).2
  · rw [hsuper]
    rintro a (⟨ha, -⟩ | ha) hmodel i hchild
    · rw [f.isLeaf a (h.mem_lt ha)] at hmodel
      by_cases hap : a = p
      · subst hap
        by_cases hin : i / s.repeats a x = b / s.repeats a x
        · obtain ⟨c, hc, hnew'⟩ := hslots.new i hin
          rw [Heap.child, if_pos (Heap.child_lt hchild), hnew', Option.some_inj] at hchild
          exact absurd (hN c hc).1 (not_le.mpr (hchild ▸ hslt))
        · rw [Heap.child, f.numChildren a (h.mem_lt ha), hslots.out i hin] at hchild
          exact h.top a ha hmodel i hchild
      · rw [f.child (h.mem_lt ha) hap] at hchild
        exact h.top a ha hmodel i hchild
    · exact htop a ha hmodel i hchild
  · rintro a (⟨ha, hax⟩ | ha) hisLeaf
    · rw [f.isLeaf a (h.mem_lt ha)] at hisLeaf
      exact hchain a (h.mem_chain a ha hisLeaf) hax
    · exact hchainN a ha hisLeaf

theorem Places.Spread.pairwise {xs ys ns : List Addr} (hs : g.Spread g' w b x)
    (hsorted : (xs ++ a :: ys).Pairwise fun a b => g.hi a < g.lo b)
    (hlt : ∀ c ∈ xs ++ a :: ys, c < b) (hns : ns.Pairwise fun a b => g'.hi a < g'.lo b)
    (hin : ∀ c ∈ ns, g'.lo a ≤ g'.lo c ∧ g'.hi c ≤ g'.hi a) :
    (xs ++ (ns ++ ys)).Pairwise fun a b => g'.hi a < g'.lo b := by
  have hspread : (xs ++ a :: ys).Pairwise fun a b => g'.hi a < g'.lo b :=
    hsorted.imp_of_mem fun ha hb hab => hs.lt (hlt _ ha) (hlt _ hb) hab
  rw [List.pairwise_append, List.pairwise_cons] at hspread
  obtain ⟨hxs, ⟨hay, hys⟩, hxay⟩ := hspread
  rw [List.pairwise_append, List.pairwise_append]
  refine ⟨hxs, ⟨hns, hys, fun c hc d hd => ?_⟩, fun c hc d hd => ?_⟩
  · exact (hin c hc).2.trans_lt (hay d hd)
  · rcases List.mem_append.mp hd with hd | hd
    · exact (hxay c hc a List.mem_cons_self).trans_le (hin d hd).1
    · exact hxay c hc d (List.mem_cons_of_mem _ hd)

theorem Layout.mem_spliced {xs ys ns : List Addr} (h : Layout s T g (xs ++ x :: ys))
    (ha : a ∈ xs ++ (ns ++ ys)) (hns : a ∉ ns) : a ∈ xs ++ x :: ys ∧ a ≠ x := by
  have hnodup := h.nodup
  rw [List.nodup_middle, List.nodup_cons] at hnodup
  have hmem : a ∈ xs ++ ys := by
    simp only [List.mem_append, hns, false_or] at ha ⊢
    exact ha
  refine ⟨?_, ?_⟩
  · rw [List.mem_append] at hmem ⊢
    exact hmem.imp_right (List.mem_cons_of_mem _)
  · rintro rfl
    exact hnodup.1 hmem

theorem Layout.graft_leaf {xs ys ns : List Addr} (h : Layout s T g (xs ++ x :: ys))
    (hp : Layout.IsParent s T x p b)
    (f : Frame s.toHeap s'.toHeap p) (hs : g.Spread g' w s.fresh x)
    (hslots : Slots s.toHeap s'.toHeap N g' x p b)
    (hN : ∀ a ∈ N, s.fresh ≤ a ∧ a < s'.fresh)
    (hnew : ∀ a ∈ N, s'.isLeaf a = false → NodeOk s'.toHeap (T \ {x} ∪ N) g' a)
    (hlohi : ∀ a, g'.lo a ≤ g'.hi a)
    (hsuper : s'.superroot = s.superroot)
    (hroot : s'.child s.superroot 0 = some s'.rootNode)
    (hlevel : s'.level s.superroot = s'.level s'.rootNode - 1)
    (htop : ∀ a ∈ N, s'.isLeaf a = false → ∀ i, s'.child a i ≠ some s.superroot)
    (hlinked : Linked s'.nextLeaf s'.prevLeaf none (xs ++ (ns ++ ys)) none)
    (hscheduled : s'.scheduled = x :: s.scheduled)
    (hns : ∀ a ∈ ns, a ∈ N ∧ s'.isLeaf a = true) (hNns : ∀ a ∈ N, s'.isLeaf a = true → a ∈ ns)
    (hsorted : ns.Pairwise fun a b => g'.hi a < g'.lo b)
    (hin : ∀ c ∈ ns, g'.lo x ≤ g'.lo c ∧ g'.hi c ≤ g'.hi x) :
    Layout s' (T \ {x} ∪ N) g' (xs ++ (ns ++ ys)) := by
  have hx : x < s.fresh := h.mem_lt (h.pointer hp.mem hp.isLeaf hp.child).mem
  refine h.graft hp f hs hslots hN hnew hlohi hsuper hroot hlevel htop hlinked ?_ ?_ ?_ ?_
    (hs.pairwise h.sorted (fun c hc => (h.leaf c hc).lt_fresh) hsorted hin)
  · intro a ha hax
    simp only [List.mem_append, List.mem_cons, hax, false_or] at ha ⊢
    exact ha.imp_right .inr
  · intro a ha hisLeaf
    exact List.mem_append_right _ (List.mem_append_left _ (hNns a ha hisLeaf))
  · intro a ha
    by_cases hnsa : a ∈ ns
    case pos =>
      obtain ⟨haN, hisLeaf⟩ := hns a hnsa
      have hge := (hN a haN).1
      refine ⟨hisLeaf, (hN a haN).2, ?_⟩
      rw [hscheduled, List.mem_cons, not_or]
      exact ⟨(hx.trans_le hge).ne', fun hmem => absurd (h.scheduled_lt a hmem) (not_lt.mpr hge)⟩
    case neg =>
      obtain ⟨hmem', hax⟩ := h.mem_spliced ha hnsa
      have hok := h.leaf a hmem'
      refine ⟨(f.isLeaf a hok.lt_fresh).trans hok.isLeaf, hok.lt_fresh.trans_le f.fresh, ?_⟩
      rw [hscheduled, List.mem_cons, not_or]
      exact ⟨hax, hok.unscheduled⟩
  · intro a ha
    rw [hscheduled, List.mem_cons] at ha
    rcases ha with rfl | ha
    · exact hx.trans_le f.fresh
    · exact (h.scheduled_lt a ha).trans_le f.fresh

theorem Readable.graft (hread : Readable s.toHeap T) (h : Layout s T g chain)
    (f : Frame s.toHeap s'.toHeap p) (hslots : Slots s.toHeap s'.toHeap N g' x p b)
    (hnew : ∀ a ∈ N, s'.isLeaf a = false → ∀ key, (s'.child a (s'.bucketID a key)).isSome) :
    Readable s'.toHeap (T \ {x} ∪ N) := by
  rintro a (⟨ha, -⟩ | ha) hmodel key
  · have hlt := h.mem_lt ha
    rw [f.isLeaf a hlt] at hmodel
    have hsome := hread a ha hmodel key
    rw [f.bucketID hlt]
    by_cases hap : a = p
    · subst hap
      obtain ⟨c, hc⟩ := Option.isSome_iff_exists.mp hsome
      by_cases hin : s.bucketID a key / s.repeats a x = b / s.repeats a x
      · obtain ⟨d, -, hd⟩ := hslots.new _ hin
        rw [Heap.child, f.numChildren a hlt, if_pos (Heap.child_lt hc), hd]
        rfl
      · rw [Heap.child, f.numChildren a hlt, hslots.out _ hin]
        exact hsome
    · rw [f.child hlt hap]
      exact hsome
  · exact hnew a ha hmodel key

theorem Layout.IsParent.eq_root (hp : Layout.IsParent s T x p b) (h : Layout s T g chain)
    (heq : p = s.superroot) : x = s.rootNode ∧ b = 0 := by
  subst heq
  have hlt := Heap.child_lt hp.child
  rw [h.superroot_numChildren, Nat.lt_one_iff] at hlt
  subst hlt
  exact ⟨Option.some_inj.mp (hp.child.symm.trans h.superroot_child), rfl⟩

theorem Layout.graft_root {y : Addr} (h : Layout s T g chain) (hp : Layout.IsParent s T x p b)
    (f : Frame s.toHeap s'.toHeap p)
    (hrootNode : s'.rootNode = if p = s.superroot then y else s.rootNode)
    (hchild : s'.child p b = some y) (hlevel : s'.level y = s.level x) :
    s'.child s.superroot 0 = some s'.rootNode ∧
      s'.level s.superroot = s'.level s'.rootNode - 1 := by
  have hsuper := h.mem_lt h.superroot_mem
  by_cases hps : p = s.superroot
  case pos =>
    obtain ⟨hx, hb⟩ := hp.eq_root h hps
    rw [if_pos hps] at hrootNode
    rw [hrootNode, hlevel, hx, f.level _ hsuper, ← hps, ← hb]
    exact ⟨hchild, hps ▸ h.superroot_level⟩
  case neg =>
    rw [if_neg hps] at hrootNode
    rw [hrootNode, f.child hsuper (Ne.symm hps), f.level _ hsuper,
      f.level _ (h.mem_lt h.root_pointer.mem)]
    exact ⟨h.superroot_child, h.superroot_level⟩

end

end LearnedIndexFramework.Alexol
