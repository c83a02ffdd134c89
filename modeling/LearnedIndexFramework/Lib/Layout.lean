import Mathlib.Algebra.Order.Ring.Nat
import Mathlib.Data.List.Basic
import Mathlib.Tactic.Ring

/-! Search trees laid out in blocks: filling an array in order, what it then holds, and walking
down the blocks of one layer after another. -/

universe u v

namespace LearnedIndexFramework.Lib

variable {α : Type u} {β : Type v}

def write (mem : List α) (address : ℕ) (x : α) : Option (List α) :=
  if address < mem.length then some (mem.set address x) else none

structure Holds (mem : List α) (address : ℕ) (cells : List (Option α)) : Prop where
  room : address + cells.length ≤ mem.length
  read : ∀ {j : ℕ} {x : α}, cells[j]? = some (some x) → mem[address + j]? = some x

section Holds

variable {mem mem' : List α} {address : ℕ} {cells cells' : List (Option α)}

theorem Holds.left (h : Holds mem address (cells ++ cells')) : Holds mem address cells where
  room := by
    have hroom := h.room
    rw [List.length_append] at hroom
    omega
  read {j x} hj := by
    have hlt : j < cells.length := (List.getElem?_eq_some_iff.mp hj).1
    apply h.read
    rw [List.getElem?_append_left hlt, hj]

theorem Holds.right (h : Holds mem address (cells ++ cells')) :
    Holds mem (address + cells.length) cells' where
  room := by
    have hroom := h.room
    rw [List.length_append] at hroom
    omega
  read {j x} hj := by
    rw [Nat.add_assoc]
    apply h.read
    rw [List.getElem?_append_right (by omega), Nat.add_sub_cancel_left, hj]

theorem Holds.append (h : Holds mem address cells)
    (h' : Holds mem (address + cells.length) cells') : Holds mem address (cells ++ cells') where
  room := by
    have hroom := h'.room
    rw [List.length_append]
    omega
  read {j x} hj := by
    rcases Nat.lt_or_ge j cells.length with hlt | hge
    case inl =>
      rw [List.getElem?_append_left hlt] at hj
      exact h.read hj
    case inr =>
      rw [List.getElem?_append_right hge] at hj
      have hread := h'.read hj
      rwa [Nat.add_assoc, Nat.add_sub_cancel' hge] at hread

theorem Holds.of_agree (h : Holds mem address cells) (hlength : mem'.length = mem.length)
    (hagree : ∀ a, address ≤ a → a < address + cells.length → mem'[a]? = mem[a]?) :
    Holds mem' address cells where
  room := hlength ▸ h.room
  read {j x} hj := by
    have hlt : j < cells.length := (List.getElem?_eq_some_iff.mp hj).1
    rw [hagree (address + j) (by omega) (by omega)]
    exact h.read hj

theorem Holds.take (h : Holds mem address cells) :
    Holds (mem.take (address + cells.length)) address cells where
  room := by
    rw [List.length_take]
    exact Nat.le_min.mpr ⟨le_rfl, h.room⟩
  read {j x} hj := by
    have hlt : j < cells.length := (List.getElem?_eq_some_iff.mp hj).1
    rw [List.getElem?_take_of_lt (by omega)]
    exact h.read hj

theorem Holds.of_take {n : ℕ} (h : Holds (mem.take n) address cells) : Holds mem address cells where
  room := by
    have hroom := h.room
    rw [List.length_take] at hroom
    omega
  read {j x} hj := by
    have hread := h.read hj
    have hlt : address + j < n := by
      have hlt := (List.getElem?_eq_some_iff.mp hread).1
      rw [List.length_take] at hlt
      omega
    rwa [List.getElem?_take_of_lt hlt] at hread

theorem Holds.block {f : ℕ → List (Option α)} {width n k : ℕ}
    (hwidth : ∀ k, (f k).length = width) (hk : k < n)
    (h : Holds mem address ((List.range n).flatMap f)) : Holds mem (address + k * width) (f k) := by
  induction n with
  | zero => omega
  | succ n ih =>
    have hlength : ((List.range n).flatMap f).length = n * width := by
      simp [List.length_flatMap, hwidth]
    rw [List.range_succ, List.flatMap_append, List.flatMap_singleton] at h
    rcases Nat.lt_or_ge k n with hlt | hge
    case inl => exact ih hlt h.left
    case inr =>
      have heq : k = n := by omega
      subst heq
      have hlast := h.right
      rwa [hlength] at hlast

end Holds

/-! ### Filling in order -/

def Fills (f : List α × ℕ → Option (List α × ℕ)) (cells : List (Option α)) : Prop :=
  ∀ mem offset, offset + cells.length ≤ mem.length → ∃ mem' : List α,
    f (mem, offset) = some (mem', offset + cells.length) ∧ mem'.length = mem.length ∧
      (∀ a, a < offset ∨ offset + cells.length ≤ a → mem'[a]? = mem[a]?) ∧
        Holds mem' offset cells

def padTo (n : ℕ) (cells : List (Option α)) : List (Option α) :=
  cells ++ List.replicate (n - cells.length) none

theorem length_padTo {n : ℕ} {cells : List (Option α)} (h : cells.length ≤ n) :
    (padTo n cells).length = n := by
  rw [padTo, List.length_append, List.length_replicate, Nat.add_sub_cancel' h]

theorem holds_replicate_none {mem : List α} {address n : ℕ} (h : address + n ≤ mem.length) :
    Holds mem address (List.replicate n none) where
  room := by rwa [List.length_replicate]
  read hj := by
    rw [List.getElem?_replicate] at hj
    split at hj
    · exact nomatch hj
    · exact nomatch hj

section Fills

variable {f g : List α × ℕ → Option (List α × ℕ)} {cells cells' : List (Option α)}

theorem fills_write (x : α) :
    Fills (fun s => (write s.1 s.2 x).bind fun mem => some (mem, s.2 + 1)) [some x] := by
  intro mem offset hroom
  have hlt : offset < mem.length := by
    rw [List.length_singleton] at hroom
    omega
  refine ⟨mem.set offset x, ?_, List.length_set .., ?_, ?_, ?_⟩
  · simp [write, hlt]
  · intro a ha
    rw [List.getElem?_set_ne (by simp at ha; omega)]
  · rw [List.length_set, List.length_singleton]
    exact hlt
  · intro j y hj
    obtain ⟨rfl, rfl⟩ : j = 0 ∧ x = y := by
      cases j with
      | zero => exact ⟨rfl, by simpa using hj⟩
      | succ j => simp at hj
    rw [Nat.add_zero, List.getElem?_set_self hlt]

theorem fills_nil : Fills (some : List α × ℕ → Option (List α × ℕ)) [] := by
  intro mem offset hroom
  exact ⟨mem, rfl, rfl, fun _ _ => rfl, hroom, fun hj => by simp at hj⟩

theorem Fills.bind (hf : Fills f cells) (hg : Fills g cells') :
    Fills (fun s => (f s).bind g) (cells ++ cells') := by
  intro mem offset hroom
  rw [List.length_append] at hroom
  obtain ⟨mem₁, hfst, hlen₁, hframe₁, hholds₁⟩ := hf mem offset (by omega)
  obtain ⟨mem₂, hsnd, hlen₂, hframe₂, hholds₂⟩ :=
    hg mem₁ (offset + cells.length) (by rw [hlen₁]; omega)
  refine ⟨mem₂, ?_, hlen₂.trans hlen₁, ?_, ?_⟩
  · simp only [hfst, Option.bind_some, hsnd, List.length_append, Nat.add_assoc]
  · intro a ha
    rw [List.length_append] at ha
    rw [hframe₂ a (by omega), hframe₁ a (by omega)]
  · refine (hholds₁.of_agree hlen₂ ?_).append hholds₂
    intro a _ ha
    exact hframe₂ a (.inl ha)

theorem Fills.foldlM {F : List α × ℕ → β → Option (List α × ℕ)} {content : β → List (Option α)}
    {xs : List β} (h : ∀ x ∈ xs, Fills (F · x) (content x)) :
    Fills (fun s => xs.foldlM F s) (xs.flatMap content) := by
  induction xs with
  | nil => exact fills_nil
  | cons x xs ih =>
    rw [List.flatMap_cons]
    exact (h x List.mem_cons_self).bind (ih fun y hy => h y (List.mem_cons_of_mem x hy))

theorem Fills.pad {n : ℕ} {g : List α × ℕ → List α × ℕ → Option (List α × ℕ)}
    (h : Fills f cells) (hn : cells.length ≤ n)
    (hg : ∀ s mem, g s (mem, s.2 + cells.length) = some (mem, s.2 + n)) :
    Fills (fun s => (f s).bind (g s)) (padTo n cells) := by
  intro mem offset hroom
  rw [length_padTo hn] at hroom ⊢
  obtain ⟨mem', heq, hlen, hframe, hholds⟩ := h mem offset (by omega)
  refine ⟨mem', ?_, hlen, ?_, hholds.append (holds_replicate_none (by omega))⟩
  · simp only [heq, Option.bind_some, hg]
  · intro a ha
    exact hframe a (by omega)

end Fills

/-! ### Layers of blocks -/

def levelsFrom (step total start : ℕ) : List ℕ :=
  List.range' start ((total - start + step - 1) / step) step

theorem levelsFrom_of_le {step total start : ℕ} (hstep : 0 < step) (h : total ≤ start) :
    levelsFrom step total start = [] := by
  have hzero : (total - start + step - 1) / step = 0 := Nat.div_eq_of_lt (by omega)
  rw [levelsFrom, hzero, List.range'_zero]

theorem levelsFrom_of_lt {step total start : ℕ} (hstep : 0 < step) (h : start < total) :
    levelsFrom step total start =
      start :: levelsFrom step total (start + min step (total - start)) := by
  rcases Nat.le_total step (total - start) with hle | hge
  case inl =>
    have hcount : total - start + step - 1 = total - (start + step) + step - 1 + step := by omega
    rw [min_eq_left hle, levelsFrom, hcount, Nat.add_div_right _ hstep, List.range'_succ, levelsFrom]
  case inr =>
    have hcount : (total - start + step - 1) / step = 1 :=
      Nat.div_eq_of_lt_le (by omega) (by omega)
    have hlast : total ≤ start + (total - start) := by omega
    rw [min_eq_right hge, levelsFrom_of_le hstep hlast, levelsFrom, hcount, List.range'_one]

theorem level_induction {step total : ℕ} (hstep : 0 < step) {P : ℕ → Prop} (last : P total)
    (next : ∀ start, start < total → P (start + min step (total - start)) → P start)
    {start : ℕ} (hstart : start ≤ total) : P start := by
  induction hn : total - start using Nat.strong_induction_on generalizing start with
  | _ n ih =>
    rcases Nat.lt_or_ge start total with hlt | hge
    case inl => exact next start hlt (ih _ (by omega) (by omega) rfl)
    case inr => exact Nat.le_antisymm hstart hge ▸ last

theorem lt_of_mem_levelsFrom {step total start level : ℕ} (hstep : 0 < step)
    (hstart : start ≤ total) (h : level ∈ levelsFrom step total start) : level < total := by
  refine level_induction hstep (P := fun start => level ∈ levelsFrom step total start → level < total)
    ?_ ?_ hstart h
  · intro h
    rw [levelsFrom_of_le hstep le_rfl] at h
    exact absurd h List.not_mem_nil
  · intro start hlt ih h
    rw [levelsFrom_of_lt hstep hlt, List.mem_cons] at h
    rcases h with rfl | h
    · exact hlt
    · exact ih h

/-- The blocks of a tree with `total` levels, cut into layers of `step` levels.  A subtree is given
by the index of its first key and the binary logarithm of its width; a block by the level it starts
at, its subtree and its depth. -/
def layers (block : ℕ → ℕ → ℕ → ℕ → List (Option α)) (step total i m start : ℕ) :
    List (Option α) :=
  (levelsFrom step total start).flatMap fun level =>
    (List.range (2 ^ level)).flatMap fun cl =>
      block level (i + cl * 2 ^ (m - level)) (m - level) (min step (total - level))

def descend (right : ℕ → Bool) : ℕ → ℕ → ℕ → ℕ
  | _, _, 0 => 0
  | i, m, t + 1 =>
    if right (i + 2 ^ (m - 1) - 1) then 2 ^ t + descend right (i + 2 ^ (m - 1)) (m - 1) t
    else descend right i (m - 1) t

section Descend

theorem descend_lt (right : ℕ → Bool) (i m t : ℕ) : descend right i m t < 2 ^ t := by
  induction t generalizing i m with
  | zero => exact Nat.one_pos
  | succ t ih =>
    have hpow : 2 ^ (t + 1) = 2 ^ t + 2 ^ t := by ring
    rw [descend]
    split
    · exact hpow ▸ Nat.add_lt_add_left (ih _ _) _
    · exact (ih _ _).trans (Nat.pow_lt_pow_succ one_lt_two)

variable {right : ℕ → Bool}

theorem descend_add {s m : ℕ} (i t : ℕ) (h : s ≤ m) :
    descend right i m (s + t) = descend right i m s * 2 ^ t +
      descend right (i + descend right i m s * 2 ^ (m - s)) (m - s) t := by
  induction s generalizing i m with
  | zero => simp [descend]
  | succ s ih =>
    obtain ⟨m, rfl⟩ : ∃ m', m = m' + 1 := ⟨m - 1, by omega⟩
    have hsplit : 2 ^ m = 2 ^ s * 2 ^ (m - s) := by
      rw [← pow_add, Nat.add_sub_cancel' (by omega)]
    rw [Nat.succ_add, descend, descend, Nat.add_sub_cancel, Nat.add_sub_add_right]
    split
    · rw [ih (i + 2 ^ m) (by omega), Nat.add_mul, Nat.add_mul, ← hsplit, pow_add, Nat.add_assoc i]
      ring
    · exact ih i (by omega)

theorem right_iff_lt_descend (hright : ∀ j k, j ≤ k → right k → right j) (i m j : ℕ)
    (hj : j < 2 ^ m - 1) : right (i + j) ↔ j < descend right i m m := by
  induction m generalizing i j with
  | zero => simp at hj
  | succ m ih =>
    have hpow : 2 ^ (m + 1) = 2 ^ m + 2 ^ m := by ring
    have hpos : 0 < 2 ^ m := Nat.two_pow_pos m
    rw [descend, Nat.add_sub_cancel]
    split
    case isTrue hmid =>
      rcases Nat.lt_or_ge j (2 ^ m) with hlt | hge
      case inl =>
        exact iff_of_true (hright _ _ (by omega) hmid) (by omega)
      case inr =>
        have hih := ih (i + 2 ^ m) (j - 2 ^ m) (by omega)
        rw [Nat.add_assoc, Nat.add_sub_cancel' hge] at hih
        rw [hih]
        omega
    case isFalse hmid =>
      rcases Nat.lt_or_ge j (2 ^ m - 1) with hlt | hge
      case inl => exact ih i j hlt
      case inr =>
        have hbound := descend_lt right i m m
        refine iff_of_false (fun hr => hmid (hright _ _ (by omega) hr)) (by omega)

end Descend

section Layers

variable {block : ℕ → ℕ → ℕ → ℕ → List (Option α)} {step total i m start : ℕ}

theorem layers_of_le (hstep : 0 < step) (h : total ≤ start) :
    layers block step total i m start = [] := by
  rw [layers, levelsFrom_of_le hstep h, List.flatMap_nil]

theorem layers_of_lt (hstep : 0 < step) (h : start < total) :
    layers block step total i m start =
      (List.range (2 ^ start)).flatMap (fun cl =>
        block start (i + cl * 2 ^ (m - start)) (m - start) (min step (total - start))) ++
          layers block step total i m (start + min step (total - start)) := by
  rw [layers, levelsFrom_of_lt hstep h, List.flatMap_cons, layers]

theorem fills_layers {F : ℕ → List α × ℕ → ℕ → Option (List α × ℕ)} (hstep : 0 < step)
    (hF : ∀ level cl, level < total → Fills (F level · cl)
      (block level (i + cl * 2 ^ (m - level)) (m - level) (min step (total - level)))) :
    Fills (fun s => (levelsFrom step total 0).foldlM
      (fun s level => (List.range (2 ^ level)).foldlM (F level) s) s)
        (layers block step total i m 0) := by
  apply Fills.foldlM
  intro level hlevel
  apply Fills.foldlM
  intro cl _
  exact hF level cl (lt_of_mem_levelsFrom hstep total.zero_le hlevel)

section Width

variable (width : ℕ → ℕ) (hstep : 0 < step)
  (hwidth : ∀ level i m, level < total →
    (block level i m (min step (total - level))).length = width level)
include hwidth

theorem length_layer (h : start < total) :
    ((List.range (2 ^ start)).flatMap fun cl => block start (i + cl * 2 ^ (m - start)) (m - start)
      (min step (total - start))).length = 2 ^ start * width start := by
  simp [List.length_flatMap, hwidth start _ _ h]

include hstep

theorem length_layers_full (hfull : ∀ level, width level + 1 = 2 ^ min step (total - level))
    (hstart : start ≤ total) : (layers block step total i m start).length + 2 ^ start = 2 ^ total := by
  refine level_induction hstep
    (P := fun start => (layers block step total i m start).length + 2 ^ start = 2 ^ total)
    ?_ ?_ hstart
  · rw [layers_of_le hstep le_rfl, List.length_nil, Nat.zero_add]
  · intro start hlt ih
    rw [layers_of_lt hstep hlt, List.length_append, length_layer width hwidth hlt]
    rw [pow_add, ← hfull] at ih
    rw [← ih]
    ring

theorem length_layers_le (hfull : ∀ level, width level = 2 ^ min step (total - level))
    (hstart : start ≤ total) :
    (layers block step total i m start).length + 2 ^ (start + 1) ≤ 2 ^ (total + 1) := by
  refine level_induction hstep (P := fun start =>
    (layers block step total i m start).length + 2 ^ (start + 1) ≤ 2 ^ (total + 1)) ?_ ?_ hstart
  · rw [layers_of_le hstep le_rfl, List.length_nil, Nat.zero_add]
  · intro start hlt ih
    rw [layers_of_lt hstep hlt, List.length_append, length_layer width hwidth hlt, hfull, ← pow_add]
    have hnext : 2 ^ (start + 1) ≤ 2 ^ (start + min step (total - start)) :=
      Nat.pow_le_pow_right two_pos (by omega)
    rw [pow_succ 2 (start + _)] at ih
    omega

theorem search_layers {mem : List α} {right : ℕ → Bool} {F : ℕ × ℕ → ℕ → Option (ℕ × ℕ)}
    {γ : Type} (answer : ℕ → Option γ) (htotal : total ≤ m)
    (hF : ∀ level offset address i m, level < total → min step (total - level) ≤ m →
      Holds mem (address + offset * width level) (block level i m (min step (total - level))) →
        F (offset, address) level =
          some (offset * 2 ^ min step (total - level) +
            descend right i m (min step (total - level)), address + 2 ^ level * width level))
    {address : ℕ} (h : Holds mem address (layers block step total i m 0)) :
    ((levelsFrom step total 0).foldlM F (0, address) >>= fun s => answer s.1) =
      answer (descend right i m total) := by
  refine level_induction hstep (P := fun start => ∀ address,
    Holds mem address (layers block step total i m start) →
      ((levelsFrom step total start).foldlM F (descend right i m start, address) >>=
        fun s => answer s.1) = answer (descend right i m total)) ?_ ?_ total.zero_le address h
  · intro address _
    rw [levelsFrom_of_le hstep le_rfl]
    rfl
  · intro start hlt ih address h
    rw [layers_of_lt hstep hlt] at h
    have hblock := Holds.block (k := descend right i m start)
      (fun _ => hwidth start _ _ hlt) (descend_lt _ _ _ _) h.left
    have hrest := h.right
    rw [length_layer width hwidth hlt] at hrest
    rw [levelsFrom_of_lt hstep hlt, List.foldlM_cons, hF start _ _ _ _ hlt (by omega) hblock,
      ← descend_add _ _ (by omega)]
    exact ih _ hrest

end Width

end Layers

end LearnedIndexFramework.Lib
