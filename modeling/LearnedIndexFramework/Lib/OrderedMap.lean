import LearnedIndexFramework.Lib.Listing
import Mathlib.Logic.Function.Basic

/-! Maps on ordered keys, as the list of their entries. -/

universe u v

namespace LearnedIndexFramework.Lib

structure OrderedMap (K : Type u) (V : Type v) [LinearOrder K] where
  entries : List (K × V)
  ascending : KeyAscending Prod.fst entries

namespace OrderedMap

variable {K : Type u} {V : Type v} [LinearOrder K]

def empty : OrderedMap K V := ⟨[], List.Pairwise.nil⟩

variable (m : OrderedMap K V) (k : K) (v : V)

def find : Option V := (hit Prod.fst k m.entries).map Prod.snd

def set : OrderedMap K V where
  entries := m.entries.filter (·.1 < k) ++ (k, v) :: m.entries.filter (k < ·.1)
  ascending := by
    refine List.pairwise_append.mpr ⟨m.ascending.filter _, keyAscending_cons.mpr
      ⟨fun e he => by simpa using (List.mem_filter.mp he).2, m.ascending.filter _⟩,
      fun e he e' he' => ?_⟩
    have hlt : e.1 < k := by simpa using (List.mem_filter.mp he).2
    rcases List.mem_cons.mp he' with rfl | he'
    · exact hlt
    · exact hlt.trans (by simpa using (List.mem_filter.mp he').2)

def insert : OrderedMap K V := if (m.find k).isSome then m else m.set k v

def erase : OrderedMap K V := ⟨m.entries.filter (·.1 ≠ k), m.ascending.filter _⟩

def above : List (K × V) := m.entries.filter (k ≤ ·.1)

variable {m k v}

theorem mem_entries_iff : (k, v) ∈ m.entries ↔ m.find k = some v := by
  rw [find, Option.map_eq_some_iff]
  constructor
  · exact fun h => ⟨(k, v), hit_of_mem m.ascending h, rfl⟩
  · rintro ⟨e, he, rfl⟩
    obtain ⟨hmem, rfl⟩ := (hit_eq_some m.ascending).mp he
    exact hmem

@[simp] theorem find_empty : (empty : OrderedMap K V).find k = none := rfl

theorem find_set (m : OrderedMap K V) (k : K) (v : V) (j : K) :
    (m.set k v).find j = if j = k then some v else m.find j := by
  refine Option.ext fun w => ?_
  rw [← mem_entries_iff, set, List.mem_append, List.mem_cons, List.mem_filter, List.mem_filter,
    mem_entries_iff, decide_eq_true_eq, decide_eq_true_eq, Prod.mk.injEq]
  by_cases hj : j = k
  · subst hj
    simp [eq_comm]
  · rw [if_neg hj]
    rcases lt_or_gt_of_ne hj with hlt | hlt
    · simp [hj, hlt, hlt.le]
    · simp [hj, hlt, hlt.le]

theorem find_insert (m : OrderedMap K V) (k : K) (v : V) (j : K) :
    (m.insert k v).find j = if j = k then some ((m.find k).getD v) else m.find j := by
  rw [insert]
  split
  case isTrue h =>
    obtain ⟨w, hw⟩ := Option.isSome_iff_exists.mp h
    split
    case isTrue hj => rw [hj, hw, Option.getD_some]
    case isFalse => rfl
  case isFalse h =>
    rw [Option.not_isSome_iff_eq_none.mp h, Option.getD_none]
    exact find_set m k v j

theorem find_erase (m : OrderedMap K V) (k j : K) :
    (m.erase k).find j = if j = k then none else m.find j := by
  refine Option.ext fun w => ?_
  rw [← mem_entries_iff, erase, List.mem_filter, mem_entries_iff, decide_eq_true_eq]
  split
  case isTrue hj => simp [hj]
  case isFalse hj => simp [hj]

theorem take_above_lists (m : OrderedMap K V) (k : K) (n : ℕ) :
    Lists m.find (k ≤ ·) n ((m.above k).take n) where
  ascending := (m.ascending.filter _).sublist (List.take_sublist n _)
  sound e he := by
    obtain ⟨hmem, hle⟩ := List.mem_filter.mp (List.mem_of_mem_take he)
    exact ⟨of_decide_eq_true hle, mem_entries_iff.mp hmem⟩
  length_le := List.length_take_le n _
  complete j v hj hv := by
    have hmem : (j, v) ∈ m.above k :=
      List.mem_filter.mpr ⟨mem_entries_iff.mpr hv, decide_eq_true hj⟩
    rw [← List.take_append_drop n (m.above k)] at hmem
    rcases List.mem_append.mp hmem with htake | hdrop
    · exact .inl htake
    · refine .inr ⟨List.length_take_of_le ?_, fun e he => ?_⟩
      · by_contra hlt
        rw [List.drop_eq_nil_of_le (by omega)] at hdrop
        cases hdrop
      · have hasc : KeyAscending Prod.fst (m.above k) := m.ascending.filter _
        rw [← List.take_append_drop n (m.above k)] at hasc
        exact (List.pairwise_append.mp hasc).2.2 e he (j, v) hdrop

end OrderedMap

end LearnedIndexFramework.Lib
