import LearnedIndexFramework.Alexol.Fill

/-! `expand_root`: the root grows, and the new slots are filled as far as the new domain goes. -/

namespace LearnedIndexFramework.Alexol

open Lib Function

variable {K : Type}

/-! ### The loop over the new slots -/

namespace Growth

variable (gr : Growth K) (x : Expansion K)

def slots : ℕ := gr.index.numChildren gr.index.rootNode - (gr.newNodesEnd - gr.newNodesStart)

def count : ℕ :=
  let predicted := (gr.index.model gr.index.rootNode).predict x.newDomain
  match x.side with
  | .left => (gr.newNodesEnd - max gr.newNodesStart predicted.toNat + gr.slots - 1) / gr.slots
  | .right =>
    (min gr.newNodesEnd (predicted + 1).toNat - gr.newNodesStart + gr.slots - 1) / gr.slots

def fillStart : ℕ :=
  match x.side with
  | .left => gr.newNodesEnd - gr.count x * gr.slots
  | .right => gr.newNodesStart

end Growth

def Side.link (side : Side) (h : Heap K) (first count : ℕ) (outermost : Addr) : Heap K :=
  match side with
  | .left => { h with
      prevLeaf := update h.prevLeaf outermost (some (first + count - 1))
      nextLeaf := update h.nextLeaf (first + count - 1) (some outermost) }
  | .right => { h with
      nextLeaf := update h.nextLeaf outermost (some first)
      prevLeaf := update h.prevLeaf first (some outermost) }

def Index.placeLeaves (s : Index K) (side : Side) (n count start : ℕ) (limits : ℕ → Limits K)
    (outermost : Addr) : Index K :=
  let h := s.createNewDataNodes count (s.level s.rootNode + 1)
    (fun _ => Nat.log2 (s.numChildren s.rootNode) - Nat.log2 n) limits
  let h := { h with
    children := update h.children s.rootNode fun i =>
      if start ≤ i ∧ i < start + count * n then some (s.fresh + (i - start) / n)
      else s.children s.rootNode i }
  { s with toHeap := (side.link h s.fresh count outermost).releaseLocks s.fresh count }

theorem Index.fillRoot_eq (gr : Growth K) (x : Expansion K) (o : Addr) :
    fillRoot gr x o =
      if gr.count x = 0 then .error .undefined
      else .ok (gr.index.placeLeaves x.side gr.slots (gr.count x) (gr.fillStart x) x.limits o) := by
  rw [fillRoot, Growth.count, Growth.fillStart, Growth.count]
  cases x.side with
  | left => rfl
  | right => rfl

theorem Side.link_eq (side : Side) (h : Heap K) (first count : ℕ) (o : Addr) :
    ∃ next prev, side.link h first count o = { h with nextLeaf := next, prevLeaf := prev } ∧
      side.LinksTo h { h with nextLeaf := next, prevLeaf := prev } first count o := by
  cases side with
  | left => exact ⟨_, _, rfl, rfl, rfl⟩
  | right => exact ⟨_, _, rfl, rfl, rfl⟩

theorem Index.placeLeaves_filled (s : Index K) (side : Side) (n count start : ℕ)
    (limits : ℕ → Limits K) (o : Addr) :
    Filled s (s.placeLeaves side n count start limits o) n count start ∧
      side.LinksTo (s.createNewDataNodes count (s.level s.rootNode + 1)
        (fun _ => Nat.log2 (s.numChildren s.rootNode) - Nat.log2 n) limits)
        (s.placeLeaves side n count start limits o).toHeap s.fresh count o := by
  have hold : ∀ a, a < s.fresh → ¬(s.fresh ≤ a ∧ a < s.fresh + count) :=
    fun a ha hand => absurd hand.1 (not_le.mpr ha)
  simp only [placeLeaves]
  obtain ⟨next, prev, hlink, hlinks⟩ := side.link_eq { s.createNewDataNodes count _ _ limits with
    children := _ } s.fresh count o
  rw [hlink]
  refine ⟨⟨rfl, rfl, rfl, rfl, rfl, rfl, fun a ha => if_neg (hold a ha),
    fun a ha => if_neg (hold a ha), fun a ha => if_neg (hold a ha),
    fun a _ hra => update_of_ne hra _ _,
    fun a ha => (if_neg (hold a ha)).trans (if_neg (hold a ha)), fun a ha ha' => if_pos ⟨ha, ha'⟩,
    fun a ha ha' => if_pos ⟨ha, ha'⟩, fun a ha ha' => if_pos ⟨ha, ha'⟩,
    fun a ha ha' => if_pos ⟨ha, ha'⟩, update_self _ _ _⟩, ?_⟩
  cases side with
  | left => exact hlinks
  | right => exact hlinks

/-! ### Which slots are filled -/

theorem ceil_sub_div {n q p : ℕ} (hn : 0 < n) (hp : p < n * q) :
    (n * q - p + n - 1) / n = q - p / n := by
  have hmod := Nat.div_add_mod p n
  have hlt := Nat.mod_lt p hn
  have hd : p / n < q := Nat.div_lt_of_lt_mul hp
  obtain ⟨t, ht⟩ := Nat.exists_eq_add_of_lt hd
  have hq : n * q = n * (p / n) + n * t + n := by
    rw [ht, Nat.mul_add, Nat.mul_add, Nat.mul_one]
  have ht' : q - p / n = t + 1 := by omega
  rw [ht']
  refine Nat.div_eq_of_lt_le ?_ ?_
  · rw [Nat.add_mul, Nat.one_mul, Nat.mul_comm t]
    omega
  · rw [Nat.add_mul, Nat.add_mul, Nat.one_mul, Nat.mul_comm t]
    omega

section

variable {gr : Growth K} {x : Expansion K} {n e : ℕ}

theorem Grown.pos {side : Side} (hg : Grown gr side n e) : 0 < n := by
  obtain ⟨k, rfl⟩ := hg.size
  exact Nat.two_pow_pos k

theorem Grown.slots_eq {side : Side} (hg : Grown gr side n e) : gr.slots = n := by
  have hle := Nat.le_mul_of_pos_right n (Nat.two_pow_pos e)
  rw [Growth.slots, hg.numChildren, hg.newNodesStart, hg.newNodesEnd]
  cases side with
  | left =>
    simp only [Side.newStart, Side.newEnd]
    omega
  | right =>
    simp only [Side.newStart, Side.newEnd]
    omega

abbrev Growth.domainBucket (gr : Growth K) (x : Expansion K) : ℕ :=
  gr.index.bucketID gr.index.rootNode x.newDomain

def Side.Filled (side : Side) (n num domainBucket i : ℕ) : Prop :=
  match side with
  | .left => domainBucket / n ≤ i / n ∧ i < num - n
  | .right => n ≤ i ∧ i / n ≤ domainBucket / n

theorem Grown.left_spec (hg : Grown gr .left n e) (hside : x.side = .left)
    (hcount : gr.count x ≠ 0) :
    gr.fillStart x = n * (gr.domainBucket x / n) ∧
      gr.fillStart x + gr.count x * n = n * 2 ^ e - n := by
  have hpos := hg.pos
  have hle := Nat.le_mul_of_pos_right n (Nat.two_pow_pos e)
  have hlast : n * 2 ^ e - n = n * (2 ^ e - 1) := by
    rw [Nat.mul_sub, Nat.mul_one]
  have hstop : gr.newNodesEnd = n * (2 ^ e - 1) := hg.newNodesEnd.trans hlast
  have hcount' : gr.count x = (n * (2 ^ e - 1) -
      ((gr.index.model gr.index.rootNode).predict x.newDomain).toNat + n - 1) / n := by
    rw [Growth.count, hside, hg.slots_eq, hstop, hg.newNodesStart]
    simp only [Side.newStart, Nat.zero_max]
  have hfill : gr.fillStart x = n * (2 ^ e - 1) - gr.count x * n := by
    rw [Growth.fillStart, hside, hg.slots_eq, hstop]
  have hbucket : gr.domainBucket x = (min (max ((gr.index.model gr.index.rootNode).predict
      x.newDomain) 0) ((n * 2 ^ e : ℕ) - 1 : ℤ)).toNat := by
    rw [Growth.domainBucket, Heap.bucketID, hg.numChildren]
  generalize (gr.index.model gr.index.rootNode).predict x.newDomain = p at hcount' hbucket
  have hp : p.toNat < n * (2 ^ e - 1) := by
    by_contra hge
    refine hcount (hcount'.trans (Nat.div_eq_of_lt ?_))
    omega
  have hbucket' : gr.domainBucket x = p.toNat := by
    rw [hbucket]
    omega
  rw [ceil_sub_div hpos hp] at hcount'
  have hdiv : p.toNat / n ≤ 2 ^ e - 1 := (Nat.div_lt_of_lt_mul hp).le
  have hmul : (2 ^ e - 1 - p.toNat / n) * n = n * (2 ^ e - 1) - n * (p.toNat / n) := by
    rw [Nat.sub_mul, Nat.mul_comm n, Nat.mul_comm n]
  have hmulLe := Nat.mul_le_mul_left n hdiv
  rw [hfill, hcount', hbucket', hmul, hlast]
  omega

theorem Grown.right_spec (hg : Grown gr .right n e) (hside : x.side = .right)
    (hcount : gr.count x ≠ 0) :
    gr.fillStart x = n ∧ gr.count x = gr.domainBucket x / n := by
  have hpos := hg.pos
  have hle := Nat.le_mul_of_pos_right n (Nat.two_pow_pos e)
  have hstart : gr.newNodesStart = n := hg.newNodesStart
  have hstop : gr.newNodesEnd = n * 2 ^ e := hg.newNodesEnd
  have hcount' : gr.count x = (min (n * 2 ^ e)
      ((gr.index.model gr.index.rootNode).predict x.newDomain + 1).toNat - n + n - 1) / n := by
    rw [Growth.count, hside, hg.slots_eq, hstop, hstart]
  have hbucket : gr.domainBucket x = (min (max ((gr.index.model gr.index.rootNode).predict
      x.newDomain) 0) ((n * 2 ^ e : ℕ) - 1 : ℤ)).toNat := by
    rw [Growth.domainBucket, Heap.bucketID, hg.numChildren]
  generalize (gr.index.model gr.index.rootNode).predict x.newDomain = p at hcount' hbucket
  refine ⟨by rw [Growth.fillStart, hside, hstart], ?_⟩
  have hp : n < min (n * 2 ^ e) (p + 1).toNat := by
    by_contra hge
    refine hcount (hcount'.trans (Nat.div_eq_of_lt ?_))
    omega
  rw [hcount', hbucket]
  congr 1
  omega

end

/-! ### The whole expansion -/

def Index.growth (s : Index K) (x : Expansion K) : Growth K :=
  if s.numChildren s.rootNode * 2 ^ x.log2ExpansionFactor ≤ s.maxFanout then s.growRoot x
  else s.newRoot x

def Expansion.Covers (x : Expansion K) (s : Index K) : Prop :=
  let gr := s.growth x
  let root := gr.index.rootNode
  ∀ key, (gr.index.child root (gr.index.bucketID root key)).isSome ∨
    x.side.Filled gr.slots (gr.index.numChildren root) (gr.domainBucket x)
      (gr.index.bucketID root key)

section

variable {s s' : Index K} {T : Set Addr} {g : Places} {chain : List Addr} {x : Expansion K}

theorem Grown.fill_spec {gr : Growth K} {n e : ℕ} (hg : Grown gr x.side n e)
    (hcount : gr.count x ≠ 0) :
    n ∣ gr.fillStart x ∧
      x.side.IsNew n (n * 2 ^ e) (gr.fillStart x) (gr.fillStart x + gr.count x * n) ∧
      ∀ i, x.side.Filled n (n * 2 ^ e) (gr.domainBucket x) i →
        gr.fillStart x ≤ i ∧ i < gr.fillStart x + gr.count x * n := by
  have hpos := hg.pos
  cases hside : x.side with
  | left =>
    rw [hside] at hg
    obtain ⟨hstart, hstop⟩ := hg.left_spec hside hcount
    refine ⟨hstart ▸ Nat.dvd_mul_right _ _, hstop, fun i hi => ⟨?_, hstop ▸ hi.2⟩⟩
    rw [hstart]
    exact (Nat.mul_le_mul_left n hi.1).trans (Nat.mul_div_le i n)
  | right =>
    rw [hside] at hg
    obtain ⟨hstart, hcount'⟩ := hg.right_spec hside hcount
    rw [hstart, hcount']
    refine ⟨dvd_rfl, rfl, fun i hi => ⟨hi.1, ?_⟩⟩
    calc
      i < n * (i / n + 1) := Nat.lt_mul_div_succ i hpos
      _ ≤ n * (gr.domainBucket x / n + 1) :=
        Nat.mul_le_mul_left n (Nat.succ_le_succ hi.2)
      _ = n + gr.domainBucket x / n * n := by
        rw [Nat.mul_add, Nat.mul_one, Nat.add_comm, Nat.mul_comm]

theorem Layout.growth (h : Layout s T g chain) (hread : Readable s.toHeap T)
    (hmodel : s.isLeaf s.rootNode = false) (x : Expansion K) :
    ∃ T' g' n, Layout (s.growth x).index T' g' chain ∧
      Grown (s.growth x) x.side n x.log2ExpansionFactor ∧
      KeepsTree s (s.growth x).index T T' g g' := by
  rw [Index.growth]
  split
  · obtain ⟨g', h'⟩ := h.growRoot hread hmodel x
    exact ⟨_, _, _, h'⟩
  · obtain ⟨g', h'⟩ := h.newRoot hread x
    exact ⟨_, _, _, h'⟩

theorem Layout.expandRoot (h : Layout s T g chain) (hread : Readable s.toHeap T)
    (hlocked : ∀ a ∈ chain, s.locked a = false) (hmodel : s.isLeaf s.rootNode = false)
    (hcovers : x.Covers s) (hcall : s.expandRoot x = .ok s') : Valid s' := by
  obtain ⟨o, hout, hcall⟩ := bind_eq_ok.mp hcall
  have hout : s.outermostNode x.side = some o := by
    rw [orStop_eq_ok] at hout
    cases hside : x.side with
    | left => rwa [hside] at hout
    | right => rwa [hside] at hout
  have hcall : Index.fillRoot (s.growth x) x o = .ok s' := hcall
  obtain ⟨hoBelow, hoLeaf, hoIn, houter⟩ := h.outermostNode_spec hout
  obtain ⟨T₁, g₁, n, h₁, hgrown, hkeeps⟩ := h.restrict.growth (hread.restrict h) hmodel x
  rw [Expansion.Covers, hgrown.slots_eq, hgrown.numChildren] at hcovers
  generalize s.growth x = gr at hcall h₁ hgrown hkeeps hcovers
  rw [Index.fillRoot_eq, hgrown.slots_eq] at hcall
  split at hcall
  case isTrue => cases hcall
  case isFalse hcount =>
    have hs' := (Except.ok.inj hcall).symm
    obtain ⟨hfilled, hlinks⟩ := gr.index.placeLeaves_filled x.side n (gr.count x) (gr.fillStart x)
      x.limits o
    rw [← hs'] at hfilled hlinks
    obtain ⟨hdvd, hnew, hslots⟩ := hgrown.fill_spec hcount
    have hoChain : o ∈ chain := h.restrict.mem_chain o hoBelow hoLeaf
    obtain ⟨keep, hsub, hkeep, hmem, hlinked⟩ := h₁.linked_join hoChain (Nat.pos_of_ne_zero hcount)
      rfl rfl hlinks
    have hin : g₁.Inside gr.index.rootNode o := by
      have hrootMem : s.rootNode ∈ below s := h.restrict.root_pointer.mem
      refine hkeeps.root.trans ⟨?_, ?_⟩
      · rw [hkeeps.lo _ hrootMem, hkeeps.lo o hoBelow]
        exact hoIn.lo
      · rw [hkeeps.hi _ hrootMem, hkeeps.hi o hoBelow]
        exact hoIn.hi
    have hT : ∀ a ∈ T₁, gr.index.isLeaf a = true → a ∈ keep := by
      intro a ha hl
      have haBelow := hkeeps.leaf a ha hl
      rw [hkeeps.isLeaf a haBelow] at hl
      refine hmem a (h.restrict.mem_chain a haBelow hl) ?_
      refine (houter a haBelow hl).imp_right fun hr => ?_
      cases hside : x.side with
      | left =>
        rw [hside] at hr
        exact (hkeeps.hi o hoBelow).trans_lt (hr.trans_eq (hkeeps.lo a haBelow).symm)
      | right =>
        rw [hside] at hr
        exact (hkeeps.hi a haBelow).trans_lt (hr.trans_eq (hkeeps.lo o hoBelow).symm)
    have hlayout := hfilled.layout h₁ hkeeps.rootIsLeaf hgrown.size hgrown.numChildren hdvd
      hgrown.old hnew hsub hkeep hin hT hlinked
    refine ⟨_, _, _, hlayout, ?_, fun a ha => ?_⟩
    · rintro a (ha | ha) hfa key
      · have hlt := h₁.mem_lt ha
        rw [hfilled.isLeaf a hlt] at hfa
        rw [hfilled.bucketID]
        by_cases hra : a = gr.index.rootNode
        · subst hra
          have hpos := (h₁.node _ ha hfa).numChildren_pos
          exact hfilled.child_isSome (Heap.bucketID_lt key hpos)
            ((hcovers key).imp_right fun hi => hslots _ hi)
        · rw [Heap.child, hfilled.numChildren, hfilled.children a hlt hra]
          exact hkeeps.read a ha hra hfa key
      · exact absurd ((hfilled.newIsLeaf a ha.1 ha.2).symm.trans hfa) Bool.noConfusion
    · rcases Side.mem_join.mp ha with ha | ha
      · obtain ⟨hge, hlt⟩ := List.mem_range'_1.mp ha
        exact hfilled.newLocked a hge (hfilled.fresh ▸ hlt)
      · have hchain := hsub.subset ha
        rw [hfilled.locked a (h₁.leaf a hchain).lt_fresh, hkeeps.locked]
        exact hlocked a hchain

end

end LearnedIndexFramework.Alexol
