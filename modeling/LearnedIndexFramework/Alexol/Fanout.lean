import LearnedIndexFramework.Alexol.Index
import Mathlib.Data.List.GetD

/-! The slots that the nodes of a fanout tree get: aligned blocks, in order. -/

namespace LearnedIndexFramework.Alexol

variable {α : Type}

theorem div_eq_of_block {q cur i : ℕ} (hq : q ∣ cur) (hle : cur ≤ i) (hlt : i < cur + q) :
    i / q = cur / q := by
  obtain ⟨t, rfl⟩ := hq
  have hpos : 0 < q := by omega
  rw [Nat.mul_div_cancel_left t hpos]
  refine Nat.div_eq_of_lt_le ?_ ?_
  · rwa [Nat.mul_comm]
  · rw [Nat.succ_mul, Nat.mul_comm]
    exact hlt

namespace Fanout

theorem length_levels (t : Fanout α) (level : ℕ) : (t.levels level).length = t.nodes.length := by
  induction t generalizing level with
  | used node => rfl
  | split left right ihl ihr => rw [levels, nodes, List.length_append, List.length_append, ihl, ihr]

theorem nodes_length_pos (t : Fanout α) : 0 < t.nodes.length := by
  induction t with
  | used node => exact Nat.zero_lt_one
  | split left right ihl ihr =>
    rw [nodes, List.length_append]
    omega

theorem levels_le (t : Fanout α) (level : ℕ) : ∀ l ∈ t.levels level, l ≤ level + t.height := by
  induction t generalizing level with
  | used node => simp [levels, height]
  | split left right ihl ihr =>
    intro l hl
    rw [levels, List.mem_append] at hl
    rw [height]
    rcases hl with hl | hl
    · have hle := ihl _ l hl
      omega
    · have hle := ihr _ l hl
      omega

theorem levels_getD_le (t : Fanout α) {m k : ℕ} (hm : t.height ≤ m) (hk : k < t.nodes.length) :
    (t.levels 0).getD k 0 ≤ m := by
  rw [← t.length_levels 0] at hk
  have hle := t.levels_le 0 _ (List.getElem_mem hk)
  rw [List.getD_eq_getElem _ _ hk]
  omega

def slotOf : Fanout α → ℕ → ℕ → ℕ
  | used _, _, _ => 0
  | split left right, m, i =>
    if i < 2 ^ (m - 1) then left.slotOf (m - 1) i
    else left.nodes.length + right.slotOf (m - 1) (i - 2 ^ (m - 1))

theorem slotOf_lt (t : Fanout α) (m i : ℕ) : t.slotOf m i < t.nodes.length := by
  induction t generalizing m i with
  | used node => exact Nat.zero_lt_one
  | split left right ihl ihr =>
    rw [slotOf, nodes, List.length_append]
    have hl := ihl (m - 1) i
    have hr := ihr (m - 1) (i - 2 ^ (m - 1))
    split <;> omega

theorem slotOf_mono (t : Fanout α) (m : ℕ) {i j : ℕ} (hij : i ≤ j) :
    t.slotOf m i ≤ t.slotOf m j := by
  induction t generalizing m i j with
  | used node => exact le_rfl
  | split left right ihl ihr =>
    rw [slotOf, slotOf]
    have hlt := left.slotOf_lt (m - 1) i
    split
    case isTrue =>
      split
      case isTrue => exact ihl _ hij
      case isFalse => omega
    case isFalse =>
      rw [if_neg (by omega)]
      have hle := ihr (m - 1) (show i - 2 ^ (m - 1) ≤ j - 2 ^ (m - 1) by omega)
      omega

theorem slotOf_block (t : Fanout α) (depth level : ℕ) {cur i j : ℕ} (hdepth : level + t.height ≤ depth)
    (hcur : 2 ^ (depth - level) ∣ cur) (hi : cur ≤ i) (hi' : i < cur + 2 ^ (depth - level))
    (hj : cur ≤ j) (hj' : j < cur + 2 ^ (depth - level))
    (hsame : t.slotOf (depth - level) (i - cur) = t.slotOf (depth - level) (j - cur)) :
    i / 2 ^ (depth - (t.levels level).getD (t.slotOf (depth - level) (i - cur)) 0) =
      j / 2 ^ (depth - (t.levels level).getD (t.slotOf (depth - level) (i - cur)) 0) := by
  induction t generalizing level cur with
  | used node =>
    simp only [levels, slotOf, List.getD_cons_zero]
    rw [div_eq_of_block hcur hi hi', div_eq_of_block hcur hj hj']
  | split left right ihl ihr =>
    rw [height] at hdepth
    have hsize : 2 ^ (depth - level) = 2 ^ (depth - (level + 1)) + 2 ^ (depth - (level + 1)) := by
      rw [← Nat.two_mul, ← Nat.pow_succ']
      congr 1
      omega
    have hpred : depth - level - 1 = depth - (level + 1) := by omega
    have hhalf : 2 ^ (depth - (level + 1)) ∣ cur := (Dvd.intro_left 2
      (by rw [Nat.two_mul]; exact hsize.symm)).trans hcur
    have hlen := left.length_levels (level + 1)
    have hli := left.slotOf_lt (depth - (level + 1)) (i - cur)
    have hlj := left.slotOf_lt (depth - (level + 1)) (j - cur)
    rw [slotOf, slotOf, hpred] at hsame
    rw [slotOf, hpred, levels]
    split at hsame
    case isTrue hiL =>
      split at hsame
      case isFalse => omega
      case isTrue hjL =>
        rw [if_pos hiL, List.getD_append _ _ _ _ (by omega)]
        exact ihl _ (by omega) hhalf hi (by omega) hj (by omega) hsame
    case isFalse hiR =>
      split at hsame
      case isTrue => omega
      case isFalse hjR =>
        have hsub : ∀ x, x - cur - 2 ^ (depth - (level + 1)) =
            x - (cur + 2 ^ (depth - (level + 1))) := fun x => by omega
        rw [if_neg hiR, List.getD_append_right _ _ _ _ (by omega), hlen, Nat.add_sub_cancel_left,
          hsub]
        rw [hsub, hsub, Nat.add_left_cancel_iff] at hsame
        exact ihr _ (by omega) (Nat.dvd_add hhalf (dvd_refl _)) (by omega) (by omega) (by omega)
          (by omega) hsame

theorem placeNodes_append (t : Fanout α) {globalDepth localDepth : ℕ} (level cur : ℕ)
    {ns : List Addr} (rest : List Addr) (levels : List ℕ) (children : ℕ → Option Addr)
    (hlength : ns.length = t.nodes.length)
    (hdepth : localDepth + level + t.height ≤ globalDepth) :
    placeNodes globalDepth localDepth (ns ++ rest) (t.levels level ++ levels) cur children =
      placeNodes globalDepth localDepth rest levels
        (cur + 2 ^ (globalDepth - (localDepth + level))) fun i =>
          if cur ≤ i ∧ i < cur + 2 ^ (globalDepth - (localDepth + level)) then
            ns[t.slotOf (globalDepth - (localDepth + level)) (i - cur)]?
          else children i := by
  induction t generalizing level cur ns rest levels children with
  | used node =>
    obtain ⟨a, rfl⟩ := List.length_eq_one_iff.mp hlength
    rfl
  | split left right ihl ihr =>
    rw [height] at hdepth
    rw [nodes, List.length_append] at hlength
    have hsize : 2 ^ (globalDepth - (localDepth + level)) =
        2 ^ (globalDepth - (localDepth + (level + 1))) +
          2 ^ (globalDepth - (localDepth + (level + 1))) := by
      rw [← Nat.two_mul, ← Nat.pow_succ']
      congr 1
      omega
    have hpred : globalDepth - (localDepth + level) - 1 =
        globalDepth - (localDepth + (level + 1)) := by omega
    have htake : (ns.take left.nodes.length).length = left.nodes.length := by
      rw [List.length_take]
      omega
    have hdrop : (ns.drop left.nodes.length).length = right.nodes.length := by
      rw [List.length_drop]
      omega
    rw [← List.take_append_drop left.nodes.length ns, Fanout.levels, List.append_assoc,
      List.append_assoc, ihl _ _ _ _ _ htake (by omega), ihr _ _ _ _ _ hdrop (by omega), hsize,
      Nat.add_assoc]
    congr 1
    funext i
    rw [slotOf, hpred, List.take_append_drop]
    generalize 2 ^ (globalDepth - (localDepth + (level + 1))) = q
    by_cases hR : cur + q ≤ i ∧ i < cur + (q + q)
    case pos =>
      rw [if_pos hR, if_pos (by omega), if_neg (by omega), List.getElem?_drop, Nat.sub_sub]
    case neg =>
      rw [if_neg hR]
      by_cases hL : cur ≤ i ∧ i < cur + q
      case pos =>
        rw [if_pos hL, if_pos (by omega), if_pos (by omega),
          List.getElem?_take_of_lt (left.slotOf_lt _ _)]
      case neg => rw [if_neg hL, if_neg (by omega)]

theorem placeNodes_eq (t : Fanout α) {globalDepth localDepth cur : ℕ} {ns : List Addr}
    (children : ℕ → Option Addr) (hlength : ns.length = t.nodes.length)
    (hdepth : localDepth + t.height ≤ globalDepth) (i : ℕ) :
    placeNodes globalDepth localDepth ns (t.levels 0) cur children i =
      if cur ≤ i ∧ i < cur + 2 ^ (globalDepth - localDepth) then
        ns[t.slotOf (globalDepth - localDepth) (i - cur)]?
      else children i := by
  have happend := t.placeNodes_append 0 cur [] [] children hlength hdepth
  rw [List.append_nil, List.append_nil] at happend
  rw [happend]
  rfl

end Fanout

end LearnedIndexFramework.Alexol
