import LearnedIndexFramework.Alexol.Fanout
import LearnedIndexFramework.Lib.Chain
import Mathlib.Data.Finset.Card
import Mathlib.Data.Set.Basic

/-! The tree below the superroot and the chain of data nodes: what every path of the index keeps.

Some data nodes of the chain can have lost their place in the tree: after an expansion of the root
the old children have more slots than they are in, and a node that is put in all of them takes the
slots of others.  So the invariant has an order of all nodes, and the tree only follows it. -/

namespace LearnedIndexFramework.Alexol

open Lib Function

variable {K : Type}

structure Places where
  parent : Addr → Addr
  block : Addr → ℕ
  lo : Addr → ℤ
  hi : Addr → ℤ

structure PointerOk (h : Heap K) (T : Set Addr) (g : Places) (a : Addr) (i : ℕ) (c : Addr) :
    Prop where
  mem : c ∈ T
  level : h.level a < h.level c
  depth : h.localDepth c ≤ Nat.log2 (h.numChildren a)
  parent : g.parent c = a
  block : i / h.repeats a c = g.block c
  lo : g.lo a ≤ g.lo c
  hi : g.hi c ≤ g.hi a

structure NodeOk (h : Heap K) (T : Set Addr) (g : Places) (a : Addr) : Prop where
  size : ∃ e, h.numChildren a = 2 ^ e
  pointer : ∀ i c, h.child a i = some c → PointerOk h T g a i c
  order : ∀ i j c d, i < j → h.child a i = some c → h.child a j = some d → c ≠ d →
    g.hi c < g.lo d

structure LeafOk (s : Index K) (a : Addr) : Prop where
  isLeaf : s.isLeaf a = true
  lt_fresh : a < s.fresh
  unscheduled : a ∉ s.scheduled

structure Layout (s : Index K) (T : Set Addr) (g : Places) (chain : List Addr) : Prop where
  node : ∀ a ∈ T, s.isLeaf a = false → NodeOk s.toHeap T g a
  lt_fresh : ∀ a ∈ T, a < s.fresh
  lo_le_hi : ∀ a, g.lo a ≤ g.hi a
  superroot_mem : s.superroot ∈ T
  superroot_isLeaf : s.isLeaf s.superroot = false
  superroot_numChildren : s.numChildren s.superroot = 1
  superroot_child : s.child s.superroot 0 = some s.rootNode
  superroot_level : s.level s.superroot = s.level s.rootNode - 1
  top : ∀ a ∈ T, s.isLeaf a = false → ∀ i, s.child a i ≠ some s.superroot
  linked : Linked s.nextLeaf s.prevLeaf none chain none
  mem_chain : ∀ a ∈ T, s.isLeaf a = true → a ∈ chain
  leaf : ∀ a ∈ chain, LeafOk s a
  scheduled_lt : ∀ a ∈ s.scheduled, a < s.fresh
  sorted : chain.Pairwise fun a b => g.hi a < g.lo b

def Readable (h : Heap K) (T : Set Addr) : Prop :=
  ∀ a ∈ T, h.isLeaf a = false → ∀ key, (h.child a (h.bucketID a key)).isSome

def Valid (s : Index K) : Prop :=
  ∃ T g chain, Layout s T g chain ∧ Readable s.toHeap T ∧ ∀ a ∈ chain, s.locked a = false

section Heap

variable {h : Heap K} {T : Set Addr} {g : Places} {a c : Addr} {i : ℕ}

theorem NodeOk.numChildren_pos (hnode : NodeOk h T g a) : 0 < h.numChildren a := by
  obtain ⟨e, he⟩ := hnode.size
  rw [he]
  exact Nat.two_pow_pos e

theorem Heap.child_lt (hchild : h.child a i = some c) : i < h.numChildren a := by
  rw [Heap.child] at hchild
  split at hchild
  case isTrue hlt => exact hlt
  case isFalse => cases hchild

theorem Heap.repeats_pos (h : Heap K) (a c : Addr) : 0 < h.repeats a c := Nat.two_pow_pos _

theorem mem_block_iff {b r : ℕ} (hr : 0 < r) :
    b - b % r ≤ i ∧ i < b - b % r + r ↔ i / r = b / r := by
  have hmod := Nat.div_add_mod b r
  have hstart : b - b % r = b / r * r := by
    rw [Nat.mul_comm]
    omega
  rw [hstart]
  constructor
  · rintro ⟨hle, hlt⟩
    refine Nat.div_eq_of_lt_le hle ?_
    rwa [Nat.succ_mul]
  · intro heq
    have hi := Nat.div_add_mod i r
    have hlt := Nat.mod_lt i hr
    rw [heq, Nat.mul_comm] at hi
    omega

theorem NodeOk.mono {T' : Set Addr} (hok : NodeOk h T g a) (hT : T ⊆ T') : NodeOk h T' g a := by
  refine ⟨hok.size, fun i c hi => ?_, hok.order⟩
  have hptr := hok.pointer i c hi
  exact ⟨hT hptr.mem, hptr.level, hptr.depth, hptr.parent, hptr.block, hptr.lo, hptr.hi⟩

theorem NodeOk.single (hnum : h.numChildren a = 1)
    (hptr : ∀ c, h.child a 0 = some c → PointerOk h T g a 0 c) : NodeOk h T g a := by
  have hzero : ∀ i c, h.child a i = some c → i = 0 := by
    intro i c hi
    have hlt := Heap.child_lt hi
    rwa [hnum, Nat.lt_one_iff] at hlt
  refine ⟨⟨0, hnum⟩, fun i c hi => ?_, fun i j c d hij hi hj _ => ?_⟩
  · obtain rfl := hzero i c hi
    exact hptr c hi
  · rw [hzero i c hi, hzero j d hj] at hij
    exact absurd hij (lt_irrefl 0)

end Heap

/-! ### Nodes that stay -/

structure SameShape (h h' : Heap K) (a : Addr) : Prop where
  isLeaf : h'.isLeaf a = h.isLeaf a
  localDepth : h'.localDepth a = h.localDepth a
  level : h'.level a = h.level a
  numChildren : h'.numChildren a = h.numChildren a
  children : h'.children a = h.children a

theorem SameShape.refl (h : Heap K) (a : Addr) : SameShape h h a := ⟨rfl, rfl, rfl, rfl, rfl⟩

structure SamePlace (g g' : Places) (a : Addr) : Prop where
  parent : g'.parent a = g.parent a
  block : g'.block a = g.block a
  lo : g'.lo a = g.lo a
  hi : g'.hi a = g.hi a

section Same

variable {h h' : Heap K} {T T' : Set Addr} {g g' : Places} {a : Addr}

theorem SameShape.child (hs : SameShape h h' a) (i : ℕ) : h'.child a i = h.child a i := by
  rw [Heap.child, Heap.child, hs.numChildren, hs.children]

theorem NodeOk.congr (hok : NodeOk h T g a) (hs : SameShape h h' a) (hlo : g'.lo a = g.lo a)
    (hhi : g'.hi a = g.hi a)
    (hchild : ∀ i c, h.child a i = some c → c ∈ T' ∧ h'.localDepth c = h.localDepth c ∧
      h'.level c = h.level c ∧ SamePlace g g' c) : NodeOk h' T' g' a := by
  refine ⟨hs.numChildren ▸ hok.size, fun i c hi => ?_, fun i j c d hij hi hj hcd => ?_⟩
  · rw [hs.child] at hi
    have hptr := hok.pointer i c hi
    obtain ⟨hmem, hdepth, hlevel, hp⟩ := hchild i c hi
    have hr : h'.repeats a c = h.repeats a c := by
      rw [Heap.repeats, Heap.repeats, hs.numChildren, hdepth]
    refine ⟨hmem, ?_, ?_, hp.parent.trans hptr.parent, ?_, ?_, ?_⟩
    · rw [hs.level, hlevel]
      exact hptr.level
    · rw [hdepth, hs.numChildren]
      exact hptr.depth
    · rw [hr, hp.block]
      exact hptr.block
    · rw [hp.lo, hlo]
      exact hptr.lo
    · rw [hp.hi, hhi]
      exact hptr.hi
  · rw [hs.child] at hi hj
    rw [(hchild i c hi).2.2.2.hi, (hchild j d hj).2.2.2.lo]
    exact hok.order i j c d hij hi hj hcd

theorem NodeOk.congr_of_mem (hok : NodeOk h T g a) (ha : a ∈ T) (hT : T ⊆ T')
    (hnode : ∀ a ∈ T, SameShape h h' a) (hplace : ∀ a ∈ T, SamePlace g g' a) :
    NodeOk h' T' g' a := by
  refine hok.congr (hnode a ha) (hplace a ha).lo (hplace a ha).hi fun i c hi => ?_
  have hmem := (hok.pointer i c hi).mem
  exact ⟨hT hmem, (hnode c hmem).localDepth, (hnode c hmem).level, hplace c hmem⟩

end Same

namespace Layout

variable {s : Index K} {T : Set Addr} {g : Places} {chain : List Addr} {a c x : Addr} {i fuel : ℕ}
  {key : K}

theorem pointer (h : Layout s T g chain) (ha : a ∈ T) (hleaf : s.isLeaf a = false)
    (hchild : s.child a i = some c) : PointerOk s.toHeap T g a i c :=
  (h.node a ha hleaf).pointer i c hchild

theorem root_pointer (h : Layout s T g chain) :
    PointerOk s.toHeap T g s.superroot 0 s.rootNode :=
  h.pointer h.superroot_mem h.superroot_isLeaf h.superroot_child

theorem nodup (h : Layout s T g chain) : chain.Nodup := by
  refine h.sorted.imp fun {a b} hab heq => ?_
  have hle := h.lo_le_hi a
  subst heq
  omega

/-! ### Lookup -/

theorem prev_mem (h : Layout s T g chain) (ha : a ∈ chain) (hprev : s.prevLeaf a = some c) :
    c ∈ chain := by
  obtain ⟨xs, ys, rfl⟩ := List.append_of_mem ha
  rw [h.linked.prev_eq, Option.or_none] at hprev
  exact List.mem_append_left _ (List.mem_of_getLast? hprev)

theorem next_mem (h : Layout s T g chain) (ha : a ∈ chain) (hnext : s.nextLeaf a = some c) :
    c ∈ chain := by
  obtain ⟨xs, ys, rfl⟩ := List.append_of_mem ha
  rw [h.linked.next_eq, Option.or_none] at hnext
  exact List.mem_append_right _ (List.mem_cons_of_mem _ (List.mem_of_mem_head? hnext))

theorem sibling_mem (h : Layout s T g chain) (key : K) (a : Addr) (hc : c ∈ chain) :
    s.sibling key a c ∈ chain := by
  rw [Heap.sibling]
  split
  · split
    case h_1 p hp =>
      split
      · exact h.prev_mem hc hp
      · exact hc
    case h_2 => exact hc
  · split
    case h_1 n hn =>
      split
      · exact h.next_mem hc hn
      · exact hc
    case h_2 => exact hc
  · exact hc

def above (s : Index K) (a : Addr) : Finset Addr :=
  {b ∈ Finset.range s.fresh | s.level a < s.level b}

theorem card_above_lt (h : Layout s T g chain) (ha : a ∈ T) (hleaf : s.isLeaf a = false)
    (hchild : s.child a i = some c) : (above s c).card < (above s a).card := by
  have hp := h.pointer ha hleaf hchild
  refine Finset.card_lt_card (Finset.ssubset_iff_of_subset ?_ |>.mpr ⟨c, ?_, ?_⟩)
  · intro b hb
    rw [above, Finset.mem_filter] at hb ⊢
    exact ⟨hb.1, hp.level.trans hb.2⟩
  · rw [above, Finset.mem_filter, Finset.mem_range]
    exact ⟨h.lt_fresh c hp.mem, hp.level⟩
  · rw [above, Finset.mem_filter]
    exact fun hlt => lt_irrefl _ hlt.2

theorem card_above_lt_fresh (h : Layout s T g chain) (ha : a ∈ T) :
    (above s a).card < s.fresh := by
  have hlt : (above s a).card < (Finset.range s.fresh).card := by
    refine Finset.card_lt_card (Finset.ssubset_iff_of_subset (Finset.filter_subset _ _) |>.mpr ?_)
    refine ⟨a, Finset.mem_range.mpr (h.lt_fresh a ha), fun hmem => ?_⟩
    exact lt_irrefl _ (Finset.mem_filter.mp hmem).2
  rwa [Finset.card_range] at hlt

theorem descend_mem (h : Layout s T g chain) (hread : Readable s.toHeap T) (key : K) (ha : a ∈ T)
    (hleaf : s.isLeaf a = false) (hfuel : (above s a).card < fuel) :
    ∃ leaf ∈ chain, s.descend key fuel a = some leaf := by
  induction fuel generalizing a with
  | zero => omega
  | succ fuel ih =>
    obtain ⟨c, hc⟩ := Option.isSome_iff_exists.mp (hread a ha hleaf key)
    have hmem := (h.pointer ha hleaf hc).mem
    rw [Heap.descend, hc, Option.bind_eq_bind, Option.bind_some]
    cases hcLeaf : s.isLeaf c with
    | true => exact ⟨_, h.sibling_mem key a (h.mem_chain c hmem hcLeaf), rfl⟩
    | false =>
      have hless := h.card_above_lt ha hleaf hc
      exact ih hmem hcLeaf (by omega)

theorem getLeaf_mem (h : Layout s T g chain) (hread : Readable s.toHeap T) (key : K) :
    ∃ leaf ∈ chain, s.getLeaf key = some leaf := by
  have hroot := h.root_pointer.mem
  rw [Index.getLeaf]
  cases hleaf : s.isLeaf s.rootNode with
  | true => exact ⟨_, h.mem_chain _ hroot hleaf, rfl⟩
  | false => exact h.descend_mem hread key hroot hleaf (h.card_above_lt_fresh hroot)

/-! ### Parents -/

def PathOk (s : Index K) (T : Set Addr) (path : TraversalPath) : Prop :=
  ∀ tn ∈ path, tn.1 ∈ T ∧ s.isLeaf tn.1 = false

variable {path path' : TraversalPath} {bucket : Addr → ℕ}

theorem pathOk_cons :
    PathOk s T ((a, i) :: path) ↔ (a ∈ T ∧ s.isLeaf a = false) ∧ PathOk s T path :=
  List.forall_mem_cons

theorem pathOk_pushSpine (h : Layout s T g chain) (hpath : PathOk s T path) (hc : c ∈ T)
    (hpush : s.pushSpine bucket fuel c path = some path') : PathOk s T path' := by
  induction fuel generalizing c path with
  | zero => cases hpush
  | succ fuel ih =>
    rw [Heap.pushSpine] at hpush
    cases hleaf : s.isLeaf c with
    | true =>
      rw [hleaf, if_pos rfl] at hpush
      cases hpush
      exact hpath
    | false =>
      rw [hleaf, if_neg Bool.false_ne_true, Option.bind_eq_some_iff] at hpush
      obtain ⟨d, hd, hrest⟩ := hpush
      exact ih (pathOk_cons.mpr ⟨⟨hc, hleaf⟩, hpath⟩) (h.pointer hc hleaf hd).mem hrest

theorem pathOk_popLeft (h : Layout s T g chain) (hpath : PathOk s T path)
    (hpop : s.popLeft a path = some (c, path')) : c ∈ T ∧ PathOk s T path' := by
  induction path generalizing a with
  | nil => cases hpop
  | cons tn path ih =>
    obtain ⟨⟨hmem, hleaf⟩, hrest⟩ := pathOk_cons.mp hpath
    rw [Heap.popLeft] at hpop
    split at hpop
    case isTrue => exact ih hrest hpop
    case isFalse =>
      rw [Option.map_eq_some_iff] at hpop
      obtain ⟨d, hd, heq⟩ := hpop
      cases heq
      exact ⟨(h.pointer hmem hleaf hd).mem, hpath⟩

theorem pathOk_popRight (h : Layout s T g chain) (hpath : PathOk s T path)
    (hpop : s.popRight a path = some (c, path')) : c ∈ T ∧ PathOk s T path' := by
  induction path generalizing a with
  | nil => cases hpop
  | cons tn path ih =>
    obtain ⟨⟨hmem, hleaf⟩, hrest⟩ := pathOk_cons.mp hpath
    rw [Heap.popRight] at hpop
    split at hpop
    case isTrue => exact ih hrest hpop
    case isFalse =>
      rw [Option.map_eq_some_iff] at hpop
      obtain ⟨d, hd, heq⟩ := hpop
      cases heq
      exact ⟨(h.pointer hmem hleaf hd).mem, hpath⟩

theorem pathOk_correctTraversalPath (h : Layout s T g chain) {side : Side}
    (hpath : PathOk s T path) (hcorrect : s.correctTraversalPath x side path = some path') :
    PathOk s T path' := by
  cases path with
  | nil => cases side <;> cases hcorrect
  | cons tn path =>
    obtain ⟨htn, hrest⟩ := pathOk_cons.mp hpath
    cases side with
    | left =>
      rw [Heap.correctTraversalPath] at hcorrect
      split at hcorrect
      case isTrue =>
        rw [Option.bind_eq_bind, Option.bind_eq_some_iff] at hcorrect
        obtain ⟨r, hpop, hpush⟩ := hcorrect
        obtain ⟨hmem, hpath'⟩ := h.pathOk_popLeft hrest hpop
        exact h.pathOk_pushSpine hpath' hmem hpush
      case isFalse =>
        cases hcorrect
        exact pathOk_cons.mpr ⟨htn, hrest⟩
    | right =>
      rw [Heap.correctTraversalPath] at hcorrect
      split at hcorrect
      case isTrue =>
        rw [Option.bind_eq_bind, Option.bind_eq_some_iff] at hcorrect
        obtain ⟨r, hpop, hpush⟩ := hcorrect
        obtain ⟨hmem, hpath'⟩ := h.pathOk_popRight hrest hpop
        exact h.pathOk_pushSpine hpath' hmem hpush
      case isFalse =>
        cases hcorrect
        exact pathOk_cons.mpr ⟨htn, hrest⟩

variable {parent : Addr} {bucketID : ℕ}

structure IsParent (s : Index K) (T : Set Addr) (c parent : Addr) (bucketID : ℕ) : Prop where
  mem : parent ∈ T
  isLeaf : s.isLeaf parent = false
  child : s.child parent bucketID = some c

theorem findParent_isParent (h : Layout s T g chain) (hpath : PathOk s T path) (ha : a ∈ T)
    (hleaf : s.isLeaf a = false)
    (hfind : s.findParent key c fuel a path = some (parent, bucketID)) :
    IsParent s T c parent bucketID := by
  induction fuel generalizing a path with
  | zero => cases hfind
  | succ fuel ih =>
    rw [Heap.findParent, Option.bind_eq_bind, Option.bind_eq_some_iff] at hfind
    obtain ⟨cur, hcur, hfind⟩ := hfind
    have hmem := (h.pointer ha hleaf hcur).mem
    have hpath' : PathOk s T ((a, s.bucketID a key) :: path) :=
      pathOk_cons.mpr ⟨⟨ha, hleaf⟩, hpath⟩
    split at hfind
    case isTrue heq =>
      cases hfind
      exact ⟨ha, hleaf, heq ▸ hcur⟩
    case isFalse =>
      split at hfind
      case isFalse hmodel =>
        exact ih hpath' hmem (Bool.eq_false_iff.mpr hmodel) hfind
      case isTrue =>
        rw [Option.bind_eq_bind, Option.bind_eq_some_iff] at hfind
        obtain ⟨side, -, hfind⟩ := hfind
        rw [Heap.lockAndCorrectTraversalPath, Option.bind_eq_bind, Option.bind_eq_some_iff] at hfind
        obtain ⟨path₁, hcorrect, hfind⟩ := hfind
        obtain ⟨hmem₁, hleaf₁⟩ := h.pathOk_correctTraversalPath hpath' hcorrect _
          (List.mem_of_find?_eq_some hfind)
        have hchild := List.find?_some hfind
        exact ⟨hmem₁, hleaf₁, of_decide_eq_true hchild⟩

theorem lockParentNode_isParent (h : Layout s T g chain)
    (hlock : s.lockParentNode key c = some (parent, bucketID)) :
    IsParent s T c parent bucketID := by
  rw [Index.lockParentNode] at hlock
  split at hlock
  case isTrue =>
    split at hlock
    case isTrue hchild =>
      cases hlock
      exact ⟨h.superroot_mem, h.superroot_isLeaf, hchild⟩
    case isFalse => cases hlock
  case isFalse =>
    split at hlock
    case isTrue => cases hlock
    case isFalse hleaf =>
      refine h.findParent_isParent ?_ h.root_pointer.mem (Bool.eq_false_iff.mpr hleaf) hlock
      exact pathOk_cons.mpr ⟨⟨h.superroot_mem, h.superroot_isLeaf⟩, fun _ hmem => nomatch hmem⟩

end Layout

end LearnedIndexFramework.Alexol
