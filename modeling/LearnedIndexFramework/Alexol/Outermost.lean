import LearnedIndexFramework.Alexol.Replace
import Mathlib.Logic.Relation

/-! The first and the last data node of a tree, to which new data nodes are linked when the root
expands.  Data nodes that have lost their place in the tree can be beyond them in the chain: they
are given up. -/

namespace LearnedIndexFramework.Alexol

open Lib Function Relation

variable {K : Type}

def Heap.IsChild (h : Heap K) (a c : Addr) : Prop := h.isLeaf a = false ∧ ∃ i, h.child a i = some c

structure Places.Inside (g : Places) (a c : Addr) : Prop where
  lo : g.lo a ≤ g.lo c
  hi : g.hi c ≤ g.hi a

theorem Places.Inside.refl (g : Places) (a : Addr) : g.Inside a a := ⟨le_rfl, le_rfl⟩

theorem Places.Inside.trans {g : Places} {a b c : Addr} (hab : g.Inside a b) (hbc : g.Inside b c) :
    g.Inside a c :=
  ⟨hab.lo.trans hbc.lo, hbc.hi.trans hab.hi⟩

def Places.Outer (g : Places) : Side → Addr → Addr → Prop
  | .left, a, c => g.hi a < g.lo c
  | .right, a, c => g.hi c < g.lo a

theorem Places.Outer.inside {g : Places} {side : Side} {a c a' c' : Addr} (h : g.Outer side a c)
    (ha : g.Inside a a') (hc : g.Inside c c') : g.Outer side a' c' := by
  cases side with
  | left => exact (ha.hi.trans_lt h).trans_le hc.lo
  | right => exact (hc.hi.trans_lt h).trans_le ha.lo

def Heap.outerBucket (h : Heap K) : Side → Addr → ℕ
  | .left, _ => 0
  | .right, a => h.numChildren a - 1

def Index.outermostNode (s : Index K) : Side → Option Addr
  | .left => s.firstDataNode
  | .right => s.lastDataNode

theorem Index.outermostNode_eq (s : Index K) (side : Side) :
    s.outermostNode side = s.outermost (s.outerBucket side) s.fresh s.rootNode := by
  cases side with
  | left => rfl
  | right => rfl

section

variable {s : Index K} {T : Set Addr} {g : Places} {chain : List Addr} {a c o : Addr} {side : Side}
  {fuel : ℕ}

theorem Layout.isChild (h : Layout s T g chain) (ha : a ∈ T) (hc : s.IsChild a c) :
    c ∈ T ∧ g.Inside a c := by
  obtain ⟨hleaf, i, hi⟩ := hc
  have hptr := h.pointer ha hleaf hi
  exact ⟨hptr.mem, hptr.lo, hptr.hi⟩

theorem Layout.reach (h : Layout s T g chain) (ha : a ∈ T) (hc : ReflTransGen s.IsChild a c) :
    c ∈ T ∧ g.Inside a c := by
  induction hc with
  | refl => exact ⟨ha, .refl g a⟩
  | tail _ hstep ih =>
    obtain ⟨hmem, hin⟩ := h.isChild ih.1 hstep
    exact ⟨hmem, ih.2.trans hin⟩

theorem Layout.outer_child (h : Layout s T g chain) (ha : a ∈ T) (hleaf : s.isLeaf a = false)
    (ho : s.child a (s.outerBucket side a) = some o) {i : ℕ} (hi : s.child a i = some c)
    (hne : c ≠ o) : g.Outer side o c := by
  have hok := h.node a ha hleaf
  have hib : i ≠ s.outerBucket side a := by
    rintro rfl
    exact hne (Option.some_inj.mp (hi.symm.trans ho))
  cases side with
  | left => exact hok.order _ i o c (Nat.pos_of_ne_zero hib) ho hi hne.symm
  | right =>
    have hlt := Heap.child_lt hi
    exact hok.order i _ c o (lt_of_le_of_ne (Nat.le_sub_one_of_lt hlt) hib) hi ho hne

theorem Layout.outermost_spec (h : Layout s T g chain) (ha : a ∈ T)
    (hout : s.outermost (s.outerBucket side) fuel a = some o) :
    ReflTransGen s.IsChild a o ∧ s.isLeaf o = true ∧
      ∀ c, ReflTransGen s.IsChild a c → s.isLeaf c = true → c = o ∨ g.Outer side o c := by
  induction fuel generalizing a with
  | zero => cases hout
  | succ fuel ih =>
    rw [Heap.outermost] at hout
    cases hleaf : s.isLeaf a with
    | true =>
      rw [hleaf, if_pos rfl, Option.some_inj] at hout
      subst hout
      refine ⟨.refl, hleaf, fun c hc _ => .inl ?_⟩
      rcases hc.cases_head with rfl | ⟨d, hd, -⟩
      · rfl
      · exact absurd (hleaf.symm.trans hd.1) Bool.noConfusion
    | false =>
      rw [hleaf, if_neg Bool.false_ne_true, Option.bind_eq_some_iff] at hout
      obtain ⟨d, hd, hout⟩ := hout
      have hchild : s.IsChild a d := ⟨hleaf, _, hd⟩
      have hmem := (h.isChild ha hchild).1
      obtain ⟨hreach, hoLeaf, hrest⟩ := ih hmem hout
      refine ⟨.head hchild hreach, hoLeaf, fun c hc hcLeaf => ?_⟩
      rcases hc.cases_head with rfl | ⟨d', ⟨-, i, hi⟩, hd'⟩
      · rw [hleaf] at hcLeaf
        cases hcLeaf
      · by_cases heq : d' = d
        · exact hrest c (heq ▸ hd') hcLeaf
        · refine .inr ((h.outer_child ha hleaf hd hi heq).inside (h.reach hmem hreach).2 ?_)
          exact (h.reach (h.pointer ha hleaf hi).mem hd').2

def below (s : Index K) : Set Addr := {a | ReflTransGen s.IsChild s.superroot a}

theorem Layout.restrict (h : Layout s T g chain) : Layout s (below s) g chain := by
  have hsub : ∀ a ∈ below s, a ∈ T := fun a ha => (h.reach h.superroot_mem ha).1
  refine
    { h with
      node := fun a ha hleaf => ?_
      lt_fresh := fun a ha => h.lt_fresh a (hsub a ha)
      superroot_mem := .refl
      top := fun a ha => h.top a (hsub a ha)
      mem_chain := fun a ha => h.mem_chain a (hsub a ha) }
  have hok := h.node a (hsub a ha) hleaf
  refine ⟨hok.size, fun i c hi => ?_, hok.order⟩
  have hptr := hok.pointer i c hi
  exact ⟨.tail ha ⟨hleaf, i, hi⟩, hptr.level, hptr.depth, hptr.parent, hptr.block, hptr.lo,
    hptr.hi⟩

theorem Readable.restrict (hread : Readable s.toHeap T) (h : Layout s T g chain) :
    Readable s.toHeap (below s) := fun a ha => hread a (h.reach h.superroot_mem ha).1

theorem Layout.outermostNode_spec (h : Layout s T g chain)
    (hout : s.outermostNode side = some o) :
    o ∈ below s ∧ s.isLeaf o = true ∧ g.Inside s.rootNode o ∧
      ∀ c ∈ below s, s.isLeaf c = true → c = o ∨ g.Outer side o c := by
  have hroot := h.root_pointer.mem
  have hchild : s.IsChild s.superroot s.rootNode := ⟨h.superroot_isLeaf, 0, h.superroot_child⟩
  rw [s.outermostNode_eq] at hout
  obtain ⟨hreach, hleaf, hrest⟩ := h.outermost_spec hroot hout
  refine ⟨.head hchild hreach, hleaf, (h.reach hroot hreach).2, fun c hc hcLeaf => ?_⟩
  refine hrest c ?_ hcLeaf
  rcases hc.cases_head with rfl | ⟨d, ⟨-, i, hi⟩, hd⟩
  · rw [h.superroot_isLeaf] at hcLeaf
    cases hcLeaf
  · have heq := (Layout.IsParent.eq_root ⟨h.superroot_mem, h.superroot_isLeaf, hi⟩ h rfl).1
    exact heq ▸ hd

end

end LearnedIndexFramework.Alexol
