import LearnedIndexFramework.Alexol.Growth

/-! New data nodes in the new slots of a root. -/

namespace LearnedIndexFramework.Alexol

open Lib Function

variable {K : Type}

def Side.IsNew : Side → ℕ → ℕ → ℕ → ℕ → Prop
  | .left, n, num, _, stop => stop = num - n
  | .right, n, _, start, _ => start = n

structure Filled (s s' : Index K) (n count start : ℕ) : Prop where
  fresh : s'.fresh = s.fresh + count
  rootNode : s'.rootNode = s.rootNode
  superroot : s'.superroot = s.superroot
  scheduled : s'.scheduled = s.scheduled
  model : s'.model = s.model
  numChildren : s'.numChildren = s.numChildren
  isLeaf : ∀ a, a < s.fresh → s'.isLeaf a = s.isLeaf a
  level : ∀ a, a < s.fresh → s'.level a = s.level a
  localDepth : ∀ a, a < s.fresh → s'.localDepth a = s.localDepth a
  children : ∀ a, a < s.fresh → a ≠ s.rootNode → s'.children a = s.children a
  locked : ∀ a, a < s.fresh → s'.locked a = s.locked a
  newIsLeaf : ∀ a, s.fresh ≤ a → a < s'.fresh → s'.isLeaf a = true
  newLevel : ∀ a, s.fresh ≤ a → a < s'.fresh → s'.level a = s.level s.rootNode + 1
  newLocalDepth : ∀ a, s.fresh ≤ a → a < s'.fresh →
    s'.localDepth a = Nat.log2 (s.numChildren s.rootNode) - Nat.log2 n
  newLocked : ∀ a, s.fresh ≤ a → a < s'.fresh → s'.locked a = false
  rootChildren : s'.children s.rootNode = fun i =>
    if start ≤ i ∧ i < start + count * n then some (s.fresh + (i - start) / n)
    else s.children s.rootNode i

def Side.base : Side → Places → Addr → ℕ → ℤ
  | .left, g, root, count => g.lo root - count
  | .right, g, root, _ => g.hi root + 1

def Places.fill (g : Places) (s : Index K) (side : Side) (count block : ℕ) : Places where
  parent a := if a < s.fresh then g.parent a else s.rootNode
  block a := if a < s.fresh then g.block a else block + (a - s.fresh)
  lo a :=
    if a < s.fresh then if a = s.rootNode ∨ a = s.superroot then g.lo a - count else g.lo a
    else side.base g s.rootNode count + (a - s.fresh : ℕ)
  hi a :=
    if a < s.fresh then if a = s.rootNode ∨ a = s.superroot then g.hi a + count else g.hi a
    else side.base g s.rootNode count + (a - s.fresh : ℕ)

section

variable {s s' : Index K} {T : Set Addr} {g : Places} {chain : List Addr} {side : Side}
  {n count start e block : ℕ} {a c o : Addr}

theorem Places.fill_same (g : Places) (side : Side) (count block : ℕ) (ha : a < s.fresh)
    (hroot : a ≠ s.rootNode) (hsuper : a ≠ s.superroot) :
    SamePlace g (g.fill s side count block) a := by
  have hne : ¬(a = s.rootNode ∨ a = s.superroot) := not_or.mpr ⟨hroot, hsuper⟩
  exact ⟨if_pos ha, if_pos ha, (if_pos ha).trans (if_neg hne), (if_pos ha).trans (if_neg hne)⟩

theorem Places.fill_wide (g : Places) (side : Side) (count block : ℕ) (ha : a < s.fresh)
    (heq : a = s.rootNode ∨ a = s.superroot) :
    (g.fill s side count block).lo a = g.lo a - count ∧
      (g.fill s side count block).hi a = g.hi a + count :=
  ⟨(if_pos ha).trans (if_pos heq), (if_pos ha).trans (if_pos heq)⟩

theorem Places.fill_new (g : Places) (side : Side) (count block : ℕ) (ha : s.fresh ≤ a) :
    (g.fill s side count block).lo a = side.base g s.rootNode count + (a - s.fresh : ℕ) ∧
      (g.fill s side count block).hi a = side.base g s.rootNode count + (a - s.fresh : ℕ) :=
  ⟨if_neg ha.not_gt, if_neg ha.not_gt⟩

theorem Places.fill_lo_le_hi (hg : ∀ a, g.lo a ≤ g.hi a) (a : Addr) :
    (g.fill s side count block).lo a ≤ (g.fill s side count block).hi a := by
  rcases lt_or_ge a s.fresh with ha | ha
  · have hle := hg a
    by_cases heq : a = s.rootNode ∨ a = s.superroot
    · obtain ⟨hlo, hhi⟩ := g.fill_wide side count block ha heq
      omega
    · obtain ⟨hra, hsa⟩ := not_or.mp heq
      have hp := g.fill_same side count block ha hra hsa
      rw [hp.lo, hp.hi]
      exact hle
  · obtain ⟨hlo, hhi⟩ := g.fill_new side count block ha
    rw [hlo, hhi]

theorem Side.base_spec (side : Side) {root : Addr} (hlohi : g.lo root ≤ g.hi root) {k : ℕ}
    (hk : k < count) :
    g.lo root - count ≤ side.base g root count + k ∧
      side.base g root count + k ≤ g.hi root + count := by
  cases side with
  | left =>
    rw [base]
    omega
  | right =>
    rw [base]
    omega

theorem Filled.child_cases (hf : Filled s s' n count start) (hn : 0 < n) {i : ℕ}
    (hi : s'.child s.rootNode i = some c) :
    ((start ≤ i ∧ i < start + count * n) ∧ (i - start) / n < count ∧
      c = s.fresh + (i - start) / n) ∨ s.child s.rootNode i = some c := by
  have hlt := Heap.child_lt hi
  simp only [Heap.child, if_pos hlt, hf.rootChildren] at hi
  rw [hf.numChildren] at hlt
  split at hi
  case isTrue hin =>
    refine .inl ⟨hin, (Nat.div_lt_iff_lt_mul hn).mpr ?_, (Option.some_inj.mp hi).symm⟩
    omega
  case isFalse => exact .inr (by rw [Heap.child, if_pos hlt, hi])

theorem Filled.bucketID (hf : Filled s s' n count start) (a : Addr) (key : K) :
    s'.bucketID a key = s.bucketID a key := by
  rw [Heap.bucketID, Heap.bucketID, hf.model, hf.numChildren]

theorem Filled.child_isSome (hf : Filled s s' n count start) {i : ℕ}
    (hlt : i < s.numChildren s.rootNode)
    (hi : (s.child s.rootNode i).isSome ∨ start ≤ i ∧ i < start + count * n) :
    (s'.child s.rootNode i).isSome := by
  rw [Heap.child, if_pos hlt] at hi
  simp only [Heap.child, hf.numChildren, if_pos hlt, hf.rootChildren]
  split
  case isTrue => rfl
  case isFalse hout => exact hi.resolve_right hout

theorem Side.IsNew.lt {num stop i j : ℕ} (hnew : side.IsNew n num start stop)
    (hi : start ≤ i ∧ i < stop) (hj : side.IsOld n num j) :
    side = .left ∧ i < j ∨ side = .right ∧ j < i := by
  cases side with
  | left => exact .inl ⟨rfl, hi.2.trans_le (hnew.trans_le hj)⟩
  | right => exact .inr ⟨rfl, hj.trans_le (hnew.ge.trans hi.1)⟩

theorem Layout.fill_child (h : Layout s T g chain) (hmodel : s.isLeaf s.rootNode = false) {i : ℕ}
    (hi : s.child s.rootNode i = some c) :
    c < s.fresh ∧ SamePlace g (g.fill s side count block) c := by
  have hroot := h.root_pointer.mem
  have hptr := h.pointer hroot hmodel hi
  have hlt := h.mem_lt hptr.mem
  refine ⟨hlt, g.fill_same side count block hlt ?_ ?_⟩
  · rintro rfl
    exact lt_irrefl _ hptr.level
  · rintro rfl
    exact h.top _ hroot hmodel i hi

theorem Places.fill_add (g : Places) (side : Side) (count block k : ℕ) :
    (g.fill s side count block).lo (s.fresh + k) = side.base g s.rootNode count + k ∧
      (g.fill s side count block).hi (s.fresh + k) = side.base g s.rootNode count + k := by
  have hspec := g.fill_new side count block (Nat.le_add_right s.fresh k)
  rwa [Nat.add_sub_cancel_left] at hspec

theorem Filled.old_pointer (hf : Filled s s' n count start) (h : Layout s T g chain)
    (hmodel : s.isLeaf s.rootNode = false) {i : ℕ} (hi : s.child s.rootNode i = some c) :
    PointerOk s'.toHeap (T ∪ {a | s.fresh ≤ a ∧ a < s'.fresh}) (g.fill s side count block)
      s.rootNode i c := by
  have hroot := h.root_pointer.mem
  have hrlt := h.mem_lt hroot
  have hptr := h.pointer hroot hmodel hi
  obtain ⟨hrlo, hrhi⟩ := g.fill_wide side count block hrlt (.inl rfl)
  obtain ⟨hlt, hp⟩ : c < s.fresh ∧ SamePlace g (g.fill s side count block) c :=
    h.fill_child hmodel hi
  have hr : s'.repeats s.rootNode c = s.repeats s.rootNode c := by
    rw [Heap.repeats, Heap.repeats, hf.numChildren, hf.localDepth c hlt]
  refine ⟨.inl hptr.mem, ?_, ?_, hp.parent.trans hptr.parent, ?_, ?_, ?_⟩
  · rw [hf.level _ hrlt, hf.level c hlt]
    exact hptr.level
  · rw [hf.localDepth c hlt, hf.numChildren]
    exact hptr.depth
  · rw [hr, hp.block]
    exact hptr.block
  · rw [hrlo, hp.lo]
    exact (sub_le_self _ (Int.natCast_nonneg count)).trans hptr.lo
  · rw [hrhi, hp.hi]
    exact hptr.hi.trans (le_add_of_nonneg_right (Int.natCast_nonneg count))

theorem Filled.new_pointer (hf : Filled s s' n count start) (h : Layout s T g chain)
    (hsize : ∃ k, n = 2 ^ k) (hnum : s.numChildren s.rootNode = n * 2 ^ e) (hdvd : n ∣ start)
    {i : ℕ} (hi : start ≤ i) (hq : (i - start) / n < count) :
    PointerOk s'.toHeap (T ∪ {a | s.fresh ≤ a ∧ a < s'.fresh})
      (g.fill s side count (start / n)) s.rootNode i (s.fresh + (i - start) / n) := by
  obtain ⟨k, hk⟩ := hsize
  have hrlt := h.mem_lt h.root_pointer.mem
  have hge := Nat.le_add_right s.fresh ((i - start) / n)
  have hlt : s.fresh + (i - start) / n < s'.fresh := hf.fresh ▸ Nat.add_lt_add_left hq _
  have hlog : Nat.log2 (s.numChildren s.rootNode) = k + e := by
    rw [hnum, hk, ← Nat.pow_add, Nat.log2_two_pow]
  have hlogn : Nat.log2 n = k := by
    rw [hk, Nat.log2_two_pow]
  have hrepeats : s'.repeats s.rootNode (s.fresh + (i - start) / n) = n := by
    rw [Heap.repeats, hf.numChildren, hf.newLocalDepth _ hge hlt, hlog, hlogn]
    rw [hk]
    congr 1
    omega
  obtain ⟨hrlo, hrhi⟩ := g.fill_wide side count (start / n) hrlt (.inl rfl)
  obtain ⟨hlo, hhi⟩ := g.fill_add (s := s) side count (start / n) ((i - start) / n)
  obtain ⟨hin₁, hin₂⟩ := side.base_spec (h.lo_le_hi s.rootNode) hq
  refine ⟨.inr ⟨hge, hlt⟩, ?_, ?_, if_neg hge.not_gt, ?_, ?_, ?_⟩
  · rw [hf.level _ hrlt, hf.newLevel _ hge hlt]
    exact lt_add_one _
  · rw [hf.numChildren, hf.newLocalDepth _ hge hlt]
    exact Nat.sub_le _ _
  · rw [hrepeats]
    refine .trans ?_ (if_neg hge.not_gt).symm
    rw [Nat.add_sub_cancel_left, ← Nat.add_div_of_dvd_right hdvd, Nat.add_sub_cancel' hi]
  · rw [hrlo, hlo]
    exact hin₁
  · rw [hrhi, hhi]
    exact hin₂

theorem Filled.order (hf : Filled s s' n count start) (h : Layout s T g chain)
    (hmodel : s.isLeaf s.rootNode = false) (hn : 0 < n)
    (hold : ∀ i c, s.child s.rootNode i = some c → side.IsOld n (n * 2 ^ e) i)
    (hnew : side.IsNew n (n * 2 ^ e) start (start + count * n)) {i j : ℕ} {d : Addr}
    (hij : i < j) (hi : s'.child s.rootNode i = some c) (hj : s'.child s.rootNode j = some d)
    (hcd : c ≠ d) : (g.fill s side count block).hi c < (g.fill s side count block).lo d := by
  have hok := h.node _ h.root_pointer.mem hmodel
  have hfill : ∀ k, (g.fill s side count block).lo (s.fresh + k) =
      side.base g s.rootNode count + k ∧ (g.fill s side count block).hi (s.fresh + k) =
      side.base g s.rootNode count + k := g.fill_add side count block
  have hchild : ∀ i c, s.child s.rootNode i = some c →
      SamePlace g (g.fill s side count block) c := fun i c hi => (h.fill_child hmodel hi).2
  rcases hf.child_cases hn hi with ⟨hri, hqi, rfl⟩ | hi
  · rcases hf.child_cases hn hj with ⟨hrj, hqj, rfl⟩ | hj
    · rw [(hfill _).1, (hfill _).2]
      have hle := Nat.div_le_div_right (c := n) (show i - start ≤ j - start by omega)
      have hne : (i - start) / n ≠ (j - start) / n := fun heq => hcd (by rw [heq])
      omega
    · rw [(hfill _).2, (hchild j d hj).lo]
      have hlo := (hok.pointer j d hj).lo
      rcases hnew.lt hri (hold j d hj) with ⟨rfl, -⟩ | ⟨-, hlt⟩
      · rw [Side.base]
        omega
      · exact absurd hlt hij.not_gt
  · rcases hf.child_cases hn hj with ⟨hrj, hqj, rfl⟩ | hj
    · rw [(hfill _).1, (hchild i c hi).hi]
      have hhi := (hok.pointer i c hi).hi
      have hnonneg := Int.natCast_nonneg ((j - start) / n)
      rcases hnew.lt hrj (hold i c hi) with ⟨-, hlt⟩ | ⟨rfl, -⟩
      · exact absurd hlt hij.not_gt
      · rw [Side.base]
        omega
    · rw [(hchild i c hi).hi, (hchild j d hj).lo]
      exact hok.order i j c d hij hi hj hcd

theorem Filled.rootOk (hf : Filled s s' n count start) (h : Layout s T g chain)
    (hmodel : s.isLeaf s.rootNode = false) (hsize : ∃ k, n = 2 ^ k)
    (hnum : s.numChildren s.rootNode = n * 2 ^ e) (hdvd : n ∣ start)
    (hold : ∀ i c, s.child s.rootNode i = some c → side.IsOld n (n * 2 ^ e) i)
    (hnew : side.IsNew n (n * 2 ^ e) start (start + count * n)) :
    NodeOk s'.toHeap (T ∪ {a | s.fresh ≤ a ∧ a < s'.fresh}) (g.fill s side count (start / n))
      s.rootNode := by
  have hn : 0 < n := by
    obtain ⟨k, rfl⟩ := hsize
    exact Nat.two_pow_pos k
  refine ⟨?_, fun i c hi => ?_, fun i j c d hij hi hj hcd => ?_⟩
  · obtain ⟨k, rfl⟩ := hsize
    exact ⟨k + e, by rw [hf.numChildren, hnum, Nat.pow_add]⟩
  · rcases hf.child_cases hn hi with ⟨hrange, hq, rfl⟩ | hi
    · exact hf.new_pointer h hsize hnum hdvd hrange.1 hq
    · exact hf.old_pointer h hmodel hi
  · exact hf.order h hmodel hn hold hnew hij hi hj hcd

theorem Layout.exists_keep (h : Layout s T g chain) (ho : o ∈ chain) (side : Side) :
    ∃ keep p n, Linked s.nextLeaf s.prevLeaf p keep n ∧ keep.Sublist chain ∧
      (∀ a ∈ keep, a = o ∨ g.Outer side o a) ∧ (∀ a ∈ chain, a = o ∨ g.Outer side o a → a ∈ keep) ∧
      (side = .left ∧ n = none ∧ keep.head? = some o ∨
        side = .right ∧ p = none ∧ keep.getLast? = some o) := by
  obtain ⟨xs, ys, rfl⟩ := List.append_of_mem ho
  have hsorted := h.sorted
  rw [List.pairwise_append, List.pairwise_cons] at hsorted
  obtain ⟨-, ⟨hoy, -⟩, hxoy⟩ := hsorted
  have hlohi := h.lo_le_hi
  have hlinked := linked_append.mp h.linked
  cases side with
  | left =>
    refine ⟨o :: ys, _, none, hlinked.2, List.sublist_append_right _ _, fun a ha => ?_,
      fun a ha hout => ?_, .inl ⟨rfl, rfl, rfl⟩⟩
    · rcases List.mem_cons.mp ha with rfl | ha
      · exact .inl rfl
      · exact .inr (hoy a ha)
    · rcases List.mem_append.mp ha with ha | ha
      · have hlt := hxoy a ha o List.mem_cons_self
        rcases hout with rfl | hout
        · exact List.mem_cons_self
        · exact absurd (((hlohi o).trans_lt hout).trans_le (hlohi a)) hlt.not_gt
      · exact ha
  | right =>
    have hlinked' : Linked s.nextLeaf s.prevLeaf none (xs ++ [o]) (ys.head?.or none) := by
      refine linked_append.mpr ⟨hlinked.1, hlinked.2.1, ?_, trivial⟩
      exact hlinked.2.2.1
    refine ⟨xs ++ [o], none, _, hlinked', ?_, fun a ha => ?_, fun a ha hout => ?_,
      .inr ⟨rfl, rfl, List.getLast?_concat⟩⟩
    · have hone : [o].Sublist (o :: ys) := List.cons_sublist_cons.mpr (List.nil_sublist ys)
      exact (List.Sublist.refl xs).append hone
    · rcases List.mem_append.mp ha with ha | ha
      · exact .inr (hxoy a ha o List.mem_cons_self)
      · exact .inl (List.mem_singleton.mp ha)
    · rcases List.mem_append.mp ha with ha | ha
      · exact List.mem_append_left _ ha
      · refine List.mem_append_right _ (List.mem_singleton.mpr ?_)
        rcases List.mem_cons.mp ha with rfl | ha
        · rfl
        · have hlt := hoy a ha
          rcases hout with rfl | hout
          · rfl
          · exact absurd (((hlohi a).trans_lt hout).trans_le (hlohi o)) hlt.not_gt

def Side.join : Side → List Addr → List Addr → List Addr
  | .left, new, old => new ++ old
  | .right, new, old => old ++ new

theorem Side.mem_join {new old : List Addr} : a ∈ side.join new old ↔ a ∈ new ∨ a ∈ old := by
  cases side with
  | left => exact List.mem_append
  | right => exact List.mem_append.trans or_comm

def Side.LinksTo (side : Side) (h h' : Heap K) (first count : ℕ) (o : Addr) : Prop :=
  match side with
  | .left =>
    h'.nextLeaf = update h.nextLeaf (first + count - 1) (some o) ∧
      h'.prevLeaf = update h.prevLeaf o (some (first + count - 1))
  | .right =>
    h'.nextLeaf = update h.nextLeaf o (some first) ∧
      h'.prevLeaf = update h.prevLeaf first (some o)

theorem Layout.linked_join (h : Layout s T g chain) (ho : o ∈ chain) (hcount : 0 < count)
    {h₁ h' : Heap K}
    (hnext : h₁.nextLeaf = fun a => if s.fresh ≤ a ∧ a < s.fresh + count then
      if a + 1 < s.fresh + count then some (a + 1) else none else s.nextLeaf a)
    (hprev : h₁.prevLeaf = fun a => if s.fresh ≤ a ∧ a < s.fresh + count then
      if s.fresh < a then some (a - 1) else none else s.prevLeaf a)
    (hlinks : side.LinksTo h₁ h' s.fresh count o) :
    ∃ keep, keep.Sublist chain ∧ (∀ a ∈ keep, a = o ∨ g.Outer side o a) ∧
      (∀ a ∈ chain, a = o ∨ g.Outer side o a → a ∈ keep) ∧
      Linked h'.nextLeaf h'.prevLeaf none (side.join (List.range' s.fresh count) keep) none := by
  obtain ⟨keep, p, n, hlinked, hsub, hkeep, hmem, hside⟩ := h.exists_keep ho side
  have hlt : ∀ a ∈ keep, a < s.fresh := fun a ha => (h.leaf a (hsub.subset ha)).lt_fresh
  have hold : ∀ a ∈ keep, ¬(s.fresh ≤ a ∧ a < s.fresh + count) :=
    fun a ha hand => absurd hand.1 (not_le.mpr (hlt a ha))
  have hkeep₁ : Linked h₁.nextLeaf h₁.prevLeaf p keep n :=
    hlinked.congr (fun a ha => (congrFun hnext a).trans (if_neg (hold a ha)))
      fun a ha => (congrFun hprev a).trans (if_neg (hold a ha))
  have hrange : Linked h₁.nextLeaf h₁.prevLeaf none (List.range' s.fresh count) none := by
    refine linked_range (fun i hi hlt => ?_) fun i hi hlt => ?_
    · exact (congrFun hnext i).trans (if_pos ⟨hi, hlt⟩)
    · exact (congrFun hprev i).trans (if_pos ⟨hi, hlt⟩)
  have hhead : (List.range' s.fresh count).head? = some s.fresh := by
    rw [List.head?_range', if_neg hcount.ne']
  have hlast : (List.range' s.fresh count).getLast? = some (s.fresh + count - 1) := by
    rw [List.getLast?_range', if_neg hcount.ne']
  have hnodup : keep.Nodup := h.nodup.sublist hsub
  have hdisjoint : ∀ a ∈ keep, ∀ b ∈ List.range' s.fresh count, a ≠ b := by
    rintro a ha b hb rfl
    exact absurd (List.mem_range'_1.mp hb).1 (not_le.mpr (hlt a ha))
  refine ⟨keep, hsub, hkeep, hmem, ?_⟩
  rcases hside with ⟨rfl, rfl, hhead'⟩ | ⟨rfl, rfl, hlast'⟩
  · refine hrange.join hkeep₁ ?_ hlast hhead' (fun x => ?_) fun x => ?_
    · exact List.nodup_append.mpr
        ⟨List.nodup_range', hnodup, fun a ha b hb => (hdisjoint b hb a ha).symm⟩
    · rw [hlinks.1, update_apply]
    · rw [hlinks.2, update_apply]
  · refine hkeep₁.join hrange ?_ hlast' hhead (fun x => ?_) fun x => ?_
    · exact List.nodup_append.mpr ⟨hnodup, List.nodup_range', hdisjoint⟩
    · rw [hlinks.1, update_apply]
    · rw [hlinks.2, update_apply]

theorem Filled.same (hf : Filled s s' n count start) (ha : a < s.fresh) (hra : a ≠ s.rootNode) :
    SameShape s.toHeap s'.toHeap a :=
  ⟨hf.isLeaf a ha, hf.localDepth a ha, hf.level a ha, congrFun hf.numChildren a,
    hf.children a ha hra⟩

theorem Filled.superroot_child (hf : Filled s s' n count start) (h : Layout s T g chain) :
    s'.child s.superroot 0 = some s.rootNode := by
  rw [(hf.same (h.mem_lt h.superroot_mem) h.root_ne_superroot.symm).child, h.superroot_child]

theorem Filled.superrootOk (hf : Filled s s' n count start) (h : Layout s T g chain) :
    NodeOk s'.toHeap (T ∪ {a | s.fresh ≤ a ∧ a < s'.fresh}) (g.fill s side count block)
      s.superroot := by
  have hrptr := h.root_pointer
  have hroot := h.mem_lt hrptr.mem
  have hsuper := h.mem_lt h.superroot_mem
  refine .single ?_ fun c hc => ?_
  · rw [hf.numChildren, h.superroot_numChildren]
  · obtain rfl := Option.some_inj.mp ((hf.superroot_child h).symm.trans hc)
    obtain ⟨hrlo, hrhi⟩ := g.fill_wide side count block hroot (.inl rfl)
    obtain ⟨hslo, hshi⟩ := g.fill_wide side count block hsuper (.inr rfl)
    refine ⟨.inl hrptr.mem, ?_, ?_, (if_pos hroot).trans hrptr.parent, ?_, ?_, ?_⟩
    · rw [hf.level _ hsuper, hf.level _ hroot]
      exact hrptr.level
    · rw [hf.localDepth _ hroot, hf.numChildren]
      exact hrptr.depth
    · rw [Nat.zero_div]
      have hblock := hrptr.block
      rw [Nat.zero_div] at hblock
      exact hblock.trans (if_pos hroot).symm
    · rw [hrlo, hslo]
      exact sub_le_sub_right hrptr.lo _
    · rw [hrhi, hshi]
      exact Int.add_le_add_right hrptr.hi _

theorem Layout.fill_place (h : Layout s T g chain) (hmodel : s.isLeaf s.rootNode = false)
    (ha : a ∈ chain) : SamePlace g (g.fill s side count block) a := by
  have hok := h.leaf a ha
  refine g.fill_same side count block hok.lt_fresh ?_ ?_
  · rintro rfl
    exact absurd (hmodel.symm.trans hok.isLeaf) Bool.noConfusion
  · rintro rfl
    exact absurd (h.superroot_isLeaf.symm.trans hok.isLeaf) Bool.noConfusion

theorem Layout.fill_sorted (h : Layout s T g chain) (hmodel : s.isLeaf s.rootNode = false)
    {keep : List Addr} (hsub : keep.Sublist chain) (hkeep : ∀ a ∈ keep, a = o ∨ g.Outer side o a)
    (hin : g.Inside s.rootNode o) :
    (side.join (List.range' s.fresh count) keep).Pairwise fun a b =>
      (g.fill s side count block).hi a < (g.fill s side count block).lo b := by
  have hge : ∀ a ∈ List.range' s.fresh count, s.fresh ≤ a := fun a ha =>
    (List.mem_range'_1.mp ha).1
  have hplace : ∀ a ∈ keep, SamePlace g (g.fill s side count block) a := fun a ha =>
    h.fill_place hmodel (hsub.subset ha)
  have hkeepSorted : keep.Pairwise fun a b => (g.fill s side count block).hi a <
      (g.fill s side count block).lo b := by
    refine (h.sorted.sublist hsub).imp_of_mem fun {a b} ha hb hab => ?_
    rw [(hplace a ha).hi, (hplace b hb).lo]
    exact hab
  have hnewSorted : (List.range' s.fresh count).Pairwise fun a b =>
      (g.fill s side count block).hi a < (g.fill s side count block).lo b := by
    refine (List.pairwise_lt_range' 1 Nat.one_pos).imp_of_mem fun {a b} ha hb hab => ?_
    rw [(g.fill_new side count block (hge a ha)).2, (g.fill_new side count block (hge b hb)).1]
    have hsubLt := Nat.sub_lt_sub_right (hge a ha) hab
    omega
  cases side with
  | left =>
    refine List.pairwise_append.mpr ⟨hnewSorted, hkeepSorted, fun a ha b hb => ?_⟩
    have hlo : g.lo s.rootNode ≤ g.lo b := by
      rcases hkeep b hb with rfl | hout
      · exact hin.lo
      · exact (hin.lo.trans (h.lo_le_hi o)).trans hout.le
    have hcount := List.mem_range'_1.mp ha
    rw [(g.fill_new .left count block (hge a ha)).2, (hplace b hb).lo, Side.base]
    omega
  | right =>
    refine List.pairwise_append.mpr ⟨hkeepSorted, hnewSorted, fun a ha b hb => ?_⟩
    have hhi : g.hi a ≤ g.hi s.rootNode := by
      rcases hkeep a ha with rfl | hout
      · exact hin.hi
      · exact (hout.le.trans (h.lo_le_hi o)).trans hin.hi
    rw [(g.fill_new .right count block (hge b hb)).1, (hplace a ha).hi, Side.base]
    omega

theorem Filled.nodeOk (hf : Filled s s' n count start) (h : Layout s T g chain)
    (hmodel : s.isLeaf s.rootNode = false) (hsize : ∃ k, n = 2 ^ k)
    (hnum : s.numChildren s.rootNode = n * 2 ^ e) (hdvd : n ∣ start)
    (hold : ∀ i c, s.child s.rootNode i = some c → side.IsOld n (n * 2 ^ e) i)
    (hnew : side.IsNew n (n * 2 ^ e) start (start + count * n))
    (ha : a ∈ T ∪ {a | s.fresh ≤ a ∧ a < s'.fresh}) (hfa : s'.isLeaf a = false) :
    NodeOk s'.toHeap (T ∪ {a | s.fresh ≤ a ∧ a < s'.fresh})
      (g.fill s side count (start / n)) a := by
  rcases ha with ha | ha
  · have hlt := h.mem_lt ha
    rw [hf.isLeaf a hlt] at hfa
    by_cases hra : a = s.rootNode
    · subst hra
      exact hf.rootOk h hmodel hsize hnum hdvd hold hnew
    by_cases hsa : a = s.superroot
    · subst hsa
      exact hf.superrootOk h
    have hpl := g.fill_same side count (start / n) hlt hra hsa
    refine (h.node a ha hfa).congr (hf.same hlt hra) hpl.lo hpl.hi fun i c hi => ?_
    have hmem := (h.pointer ha hfa hi).mem
    have hclt := h.mem_lt hmem
    refine ⟨.inl hmem, hf.localDepth c hclt, hf.level c hclt,
      g.fill_same side count (start / n) hclt ?_ ?_⟩
    · rintro rfl
      exact hsa (h.pointer_unique h.root_isParent ha hfa hi).1
    · rintro rfl
      exact h.top a ha hfa i hi
  · exact absurd ((hf.newIsLeaf a ha.1 ha.2).symm.trans hfa) Bool.noConfusion

theorem Filled.top (hf : Filled s s' n count start) (h : Layout s T g chain) (hn : 0 < n)
    (ha : a ∈ T ∪ {a | s.fresh ≤ a ∧ a < s'.fresh}) (hfa : s'.isLeaf a = false) (i : ℕ) :
    s'.child a i ≠ some s.superroot := by
  intro hi
  rcases ha with ha | ha
  · rw [hf.isLeaf a (h.mem_lt ha)] at hfa
    by_cases hra : a = s.rootNode
    · subst hra
      rcases hf.child_cases hn hi with ⟨-, -, heq⟩ | hi
      · exact absurd (h.mem_lt h.superroot_mem) (heq ▸ not_lt.mpr (Nat.le_add_right _ _))
      · exact h.top _ ha hfa i hi
    · rw [(hf.same (h.mem_lt ha) hra).child] at hi
      exact h.top a ha hfa i hi
  · exact absurd ((hf.newIsLeaf a ha.1 ha.2).symm.trans hfa) Bool.noConfusion

theorem Filled.leafOk (hf : Filled s s' n count start) (h : Layout s T g chain)
    (ha : a ∈ List.range' s.fresh count ∨ a ∈ chain) : LeafOk s' a := by
  rcases ha with ha | ha
  · obtain ⟨hge, hlt⟩ := List.mem_range'_1.mp ha
    rw [← hf.fresh] at hlt
    refine ⟨hf.newIsLeaf a hge hlt, hlt, fun hmem => ?_⟩
    rw [hf.scheduled] at hmem
    exact absurd (h.scheduled_lt a hmem) (not_lt.mpr hge)
  · have hok := h.leaf a ha
    refine ⟨(hf.isLeaf a hok.lt_fresh).trans hok.isLeaf, ?_, ?_⟩
    · rw [hf.fresh]
      exact Nat.lt_add_right _ hok.lt_fresh
    · rw [hf.scheduled]
      exact hok.unscheduled

theorem Filled.layout (hf : Filled s s' n count start) (h : Layout s T g chain)
    (hmodel : s.isLeaf s.rootNode = false) (hsize : ∃ k, n = 2 ^ k)
    (hnum : s.numChildren s.rootNode = n * 2 ^ e) (hdvd : n ∣ start)
    (hold : ∀ i c, s.child s.rootNode i = some c → side.IsOld n (n * 2 ^ e) i)
    (hnew : side.IsNew n (n * 2 ^ e) start (start + count * n)) {keep : List Addr}
    (hsub : keep.Sublist chain) (hkeep : ∀ a ∈ keep, a = o ∨ g.Outer side o a)
    (hin : g.Inside s.rootNode o) (hT : ∀ a ∈ T, s.isLeaf a = true → a ∈ keep)
    (hlinked : Linked s'.nextLeaf s'.prevLeaf none (side.join (List.range' s.fresh count) keep)
      none) :
    Layout s' (T ∪ {a | s.fresh ≤ a ∧ a < s'.fresh}) (g.fill s side count (start / n))
      (side.join (List.range' s.fresh count) keep) := by
  have hroot := h.mem_lt h.root_pointer.mem
  have hsuper := h.mem_lt h.superroot_mem
  have hn : 0 < n := by
    obtain ⟨k, rfl⟩ := hsize
    exact Nat.two_pow_pos k
  refine
    { node := fun a => hf.nodeOk h hmodel hsize hnum hdvd hold hnew
      lt_fresh := ?_
      lo_le_hi := fun a => Places.fill_lo_le_hi h.lo_le_hi a
      superroot_mem := hf.superroot ▸ .inl h.superroot_mem
      superroot_isLeaf := by rw [hf.superroot, hf.isLeaf _ hsuper, h.superroot_isLeaf]
      superroot_numChildren := by rw [hf.superroot, hf.numChildren, h.superroot_numChildren]
      superroot_child := by rw [hf.superroot, hf.rootNode, hf.superroot_child h]
      superroot_level := by
        rw [hf.superroot, hf.rootNode, hf.level _ hsuper, hf.level _ hroot, h.superroot_level]
      top := fun a ha hfa i => hf.superroot ▸ hf.top h hn ha hfa i
      linked := hlinked
      mem_chain := ?_
      leaf := fun a ha => hf.leafOk h ((Side.mem_join.mp ha).imp_right (hsub.subset ·))
      scheduled_lt := fun a ha => ?_
      sorted := h.fill_sorted hmodel hsub hkeep hin }
  · rintro a (ha | ha)
    · rw [hf.fresh]
      exact Nat.lt_add_right _ (h.mem_lt ha)
    · exact ha.2
  · rintro a (ha | ha) hl
    · rw [hf.isLeaf a (h.mem_lt ha)] at hl
      exact Side.mem_join.mpr (.inr (hT a ha hl))
    · refine Side.mem_join.mpr (.inl (List.mem_range'_1.mpr ?_))
      rw [← hf.fresh]
      exact ha
  · rw [hf.scheduled] at ha
    rw [hf.fresh]
    exact Nat.lt_add_right _ (h.scheduled_lt a ha)

end

end LearnedIndexFramework.Alexol
