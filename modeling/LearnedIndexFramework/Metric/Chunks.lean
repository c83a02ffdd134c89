import LearnedIndexFramework.Metric.Segments
import Mathlib.Algebra.Order.BigOperators.Group.Finset
import Mathlib.Algebra.Order.Floor.Div

/-! `skew_variance` counts the segments of each chunk of keys in `model`.  It starts that counter
anew with every chunk, adds it to a sum that it never reads, and returns the counter of the last
chunk over the number of chunks. -/

namespace LearnedIndexFramework.Metric

open Lib

namespace PgmMetric

structure Skew where
  segment : OptimalPiecewiseLinearModel
  model : ℕ := 0
  sum : ℚ := 0
  segCount : ℕ := 0

namespace Skew

def startChunk (s : Skew) : Skew where
  segment := s.segment.reset
  model := 0
  sum := s.sum + (s.model + 1 : ℕ)
  segCount := s.segCount + 1

def addPoint (s : Skew) (key i : ℤ) : Except String Skew := do
  let (accepted, segment) ← s.segment.addPoint .uint64 key i
  if accepted then return { s with segment }
  else
    let (_, segment) ← segment.reset.addPoint .uint64 key i
    return { s with segment, model := s.model + 1 }

end Skew

def skewLoop (count : ℕ) (s : Skew) (i : ℕ) : List ℤ → Except String Skew
  | [] => .ok s
  | key :: keys => do
    let s := if i % count = 0 then s.startChunk else s
    let s ← s.addPoint key i
    skewLoop count s (i + 1) keys

/-- What is returned, without the rounding of the quotient.  For no keys at all it would be
`0.0 / 0.0`. -/
def skewVariance (keys : List ℤ) (errorBound count : ℕ) : Except String ℚ := do
  let s ← skewLoop count { segment := { epsilon := errorBound } } 0 (keys.insertionSort (· ≤ ·))
  return s.model / s.segCount

end PgmMetric

/-! ### The mean over all chunks -/

noncomputable def chunkSegments (e count i : ℕ) (keys : List ℤ) (k : ℕ) : ℕ :=
  greedyBreaks (FitsBands .uint64 e) []
    (ranked (i + k * count : ℕ) ((keys.drop (k * count)).take count)) + 1

noncomputable def meanChunkSegments (e count : ℕ) (keys : List ℤ) : ℚ :=
  (∑ k ∈ Finset.range (keys.length ⌈/⌉ count), chunkSegments e count 0 keys k : ℕ) /
    (keys.length ⌈/⌉ count : ℕ)

section Chunks

variable {e count i : ℕ} {keys : List ℤ}

theorem ceilDiv_of_le (hne : keys ≠ []) (hle : keys.length ≤ count) :
    keys.length ⌈/⌉ count = 1 := by
  have hpos := List.length_pos_of_ne_nil hne
  rw [Nat.ceilDiv_eq_add_pred_div]
  exact Nat.div_eq_of_lt_le (by omega) (by omega)

theorem ceilDiv_drop (hcount : 0 < count) (hlt : count < keys.length) :
    keys.length ⌈/⌉ count = (keys.drop count).length ⌈/⌉ count + 1 := by
  rw [Nat.ceilDiv_eq_add_pred_div, Nat.ceilDiv_eq_add_pred_div, List.length_drop,
    ← Nat.add_div_right _ hcount]
  congr 1
  omega

theorem chunkSegments_zero (hle : keys.length ≤ count) :
    chunkSegments e count i keys 0 = greedyBreaks (FitsBands .uint64 e) [] (ranked i keys) + 1 := by
  simp [chunkSegments, List.take_of_length_le hle]

theorem chunkSegments_drop (k : ℕ) :
    chunkSegments e count i keys (k + 1) = chunkSegments e count (i + count) (keys.drop count) k := by
  rw [chunkSegments, chunkSegments, List.drop_drop, Nat.succ_mul, Nat.add_comm (k * count),
    Nat.add_assoc]

theorem chunkSegments_singleton {k : ℕ} {key : ℤ}
    (hchunk : (keys.drop (k * count)).take count = [key]) (hlt : i + k * count < 2 ^ 64) :
    chunkSegments e count i keys k = 1 := by
  have hfits : FitsBands .uint64 e ([] ++ [(key, ((i + k * count : ℕ) : ℤ))]) :=
    fitsBands_singleton (Int.natCast_nonneg e) ⟨Int.natCast_nonneg _, by
      simp only [Limits.uint64]
      omega⟩
  rw [chunkSegments, hchunk, ranked, greedyBreaks_of_fits hfits]
  rfl

end Chunks

namespace PgmMetric

section Loop

variable {e count i : ℕ} {s : Skew} {keys : List ℤ}

theorem skewLoop_append (s : Skew) (i : ℕ) (front back : List ℤ) :
    skewLoop count s i (front ++ back) = (do
      let s ← skewLoop count s i front
      skewLoop count s (i + front.length) back) := by
  induction front generalizing s i with
  | nil => rfl
  | cons key front ih =>
    rw [List.cons_append, skewLoop, skewLoop]
    cases (if i % count = 0 then s.startChunk else s).addPoint key i with
    | error e => rfl
    | ok s =>
      simp only [bind, Except.bind, ih, List.length_cons]
      rw [Nat.add_right_comm, Nat.add_assoc]

theorem addPoint_skewLoop (s : Skew) (key : ℤ) (i : ℕ) (keys : List ℤ)
    (hwithin : ∀ t < keys.length, (i + 1 + t) % count ≠ 0) :
    (do let s ← s.addPoint key i; skewLoop count s (i + 1) keys) =
      (segments s.segment i (key :: keys)).map fun r =>
        { s with segment := r.2, model := s.model + r.1.length } := by
  induction keys generalizing s key i with
  | nil =>
    rw [Skew.addPoint, segments]
    cases s.segment.addPoint .uint64 key i with
    | error e => rfl
    | ok r =>
      obtain ⟨accepted, segment⟩ := r
      cases accepted with
      | true => rfl
      | false =>
        simp only [bind, Except.bind, Bool.false_eq_true, if_false]
        cases segment.reset.addPoint .uint64 key i with
        | error e => rfl
        | ok r => rfl
  | cons next keys ih =>
    have hnext : ∀ s : Skew, skewLoop count s (i + 1) (next :: keys) =
        (segments s.segment (i + 1 : ℕ) (next :: keys)).map fun r =>
          { s with segment := r.2, model := s.model + r.1.length } := by
      intro s
      rw [skewLoop, if_neg (hwithin 0 (Nat.succ_pos _)), ← ih s next (i + 1) fun t ht => ?_]
      have := hwithin (t + 1) (Nat.succ_lt_succ ht)
      rwa [← Nat.add_assoc, Nat.add_right_comm _ t] at this
    simp only [hnext]
    rw [Skew.addPoint, segments]
    cases s.segment.addPoint .uint64 key i with
    | error e => rfl
    | ok r =>
      obtain ⟨accepted, segment⟩ := r
      cases accepted with
      | true => rfl
      | false =>
        simp only [bind, Except.bind, Bool.false_eq_true, if_false]
        cases segment.reset.addPoint .uint64 key i with
        | error e => rfl
        | ok r =>
          obtain ⟨-, segment⟩ := r
          simp only [pure, Except.pure, Except.map, Nat.cast_succ]
          cases segments segment (i + 1) (next :: keys) with
          | error e => rfl
          | ok r =>
            simp only [List.length_cons]
            congr 2
            omega

theorem skewLoop_chunk (s : Skew) (heps : s.segment.epsilon = e) (hi : i % count = 0)
    (hne : keys ≠ []) (hle : keys.length ≤ count) (hsorted : keys.Pairwise (· < ·))
    (hmem : ∀ p ∈ ranked i keys, Limits.uint64.Mem p.2) :
    ∃ s', skewLoop count s i keys = .ok s' ∧ s'.segment.epsilon = e ∧
      s'.segCount = s.segCount + 1 ∧
      s'.model = greedyBreaks (FitsBands .uint64 e) [] (ranked i keys) := by
  obtain ⟨key, keys, rfl⟩ := List.exists_cons_of_ne_nil hne
  have hreset : IsSegment e s.startChunk.segment [] := .nil rfl rfl heps
  obtain ⟨closed, last, run, hrun, hlength, -, -, hlast, -⟩ :=
    segments_spec (i := i) _ (key :: keys) hreset (by simpa using pairwise_ranked hsorted)
      (by simpa using hmem)
  refine ⟨{ s.startChunk with segment := last, model := closed.length }, ?_, hlast.epsilon, rfl,
    hlength⟩
  rw [List.length_cons] at hle
  rw [skewLoop, if_pos hi, addPoint_skewLoop _ key i keys fun t ht => ?_, hrun]
  · simp [Except.map, Skew.startChunk]
  · rw [Nat.add_assoc, Nat.add_mod, hi, zero_add, Nat.mod_mod, Nat.mod_eq_of_lt (by omega)]
    omega

theorem skewLoop_spec (hcount : 0 < count) (s : Skew) (heps : s.segment.epsilon = e)
    (hi : i % count = 0) (hne : keys ≠ []) (hsorted : keys.Pairwise (· < ·))
    (hmem : ∀ p ∈ ranked i keys, Limits.uint64.Mem p.2) :
    ∃ s' last, skewLoop count s i keys = .ok s' ∧ last + 1 = keys.length ⌈/⌉ count ∧
      s'.segCount = s.segCount + (last + 1) ∧
      s'.model + 1 = chunkSegments e count i keys last := by
  induction hlen : keys.length using Nat.strong_induction_on generalizing keys s i with
  | _ n ih =>
    subst hlen
    rcases Nat.lt_or_ge count keys.length with hlt | hle
    case inr =>
      obtain ⟨s', hrun, -, hsegs, hmodel⟩ := skewLoop_chunk s heps hi hne hle hsorted hmem
      refine ⟨s', 0, hrun, (ceilDiv_of_le hne hle).symm, hsegs, ?_⟩
      rw [chunkSegments_zero hle, hmodel]
    case inl =>
      have hfront : (keys.take count).length = count := List.length_take_of_le hlt.le
      obtain ⟨s₁, hrun₁, heps₁, hsegs₁, -⟩ := skewLoop_chunk s heps hi
        (List.ne_nil_of_length_pos (by rwa [hfront])) hfront.le
        (hsorted.sublist (List.take_sublist _ _)) (by
          rw [← ranked_take]
          exact fun p hp => hmem p (List.mem_of_mem_take hp))
      have hback : keys.drop count ≠ [] := List.ne_nil_of_length_pos (by
        rw [List.length_drop]
        omega)
      obtain ⟨s₂, last, hrun₂, hchunks, hsegs₂, hmodel⟩ := ih (keys.drop count).length (by
          rw [List.length_drop]
          omega) s₁ heps₁ (i := i + count) (by rw [Nat.add_mod_right, hi]) hback
        (hsorted.sublist (List.drop_sublist _ _)) (by
          rw [Nat.cast_add, ← ranked_drop]
          exact fun p hp => hmem p (List.mem_of_mem_drop hp)) rfl
      refine ⟨s₂, last + 1, ?_, ?_, ?_, ?_⟩
      · conv_lhs => rw [← List.take_append_drop count keys, skewLoop_append, hrun₁, hfront]
        exact hrun₂
      · rw [hchunks, ceilDiv_drop hcount hlt]
      · rw [hsegs₂, hsegs₁]
        omega
      · rw [hmodel, chunkSegments_drop]

end Loop

theorem skewVariance_eq {keys : List ℤ} {e count : ℕ} (hne : keys ≠ [])
    (hsorted : keys.Pairwise (· < ·)) (hlen : keys.length < 2 ^ 31) (hcount : 0 < count) :
    ∃ last, last + 1 = keys.length ⌈/⌉ count ∧ skewVariance keys e count =
      .ok ((chunkSegments e count 0 keys last - 1 : ℚ) / (last + 1 : ℕ)) := by
  obtain ⟨s, last, hrun, hchunks, hsegs, hmodel⟩ := skewLoop_spec (i := 0) hcount
    { segment := { epsilon := e } } rfl (Nat.zero_mod count) hne hsorted
    (by simpa using uint64_mem_of_length_lt hlen)
  refine ⟨last, hchunks, ?_⟩
  rw [skewVariance, (hsorted.imp fun h => h.le).insertionSort_eq, hrun, ← hmodel]
  simp only [bind, Except.bind, pure, Except.pure, hsegs, Nat.zero_add]
  push_cast
  rw [add_sub_cancel_right]

/-- The result is below the mean over all chunks, whatever the keys are. -/
theorem skewVariance_lt_mean (keys : List ℤ) (e count : ℕ) (hne : keys ≠ [])
    (hsorted : keys.Pairwise (· < ·)) (hlen : keys.length < 2 ^ 31) (hcount : 0 < count) :
    ∃ v, skewVariance keys e count = .ok v ∧ v < meanChunkSegments e count keys := by
  obtain ⟨last, hchunks, hv⟩ := skewVariance_eq (e := e) hne hsorted hlen hcount
  refine ⟨_, hv, ?_⟩
  have hle : chunkSegments e count 0 keys last ≤
      ∑ k ∈ Finset.range (last + 1), chunkSegments e count 0 keys k :=
    Finset.single_le_sum (fun k _ => Nat.zero_le _) (Finset.self_mem_range_succ last)
  have hle' : (chunkSegments e count 0 keys last : ℚ) ≤
      (∑ k ∈ Finset.range (last + 1), chunkSegments e count 0 keys k : ℕ) := by
    exact_mod_cast hle
  rw [meanChunkSegments, ← hchunks]
  refine (div_lt_div_iff_of_pos_right (by positivity)).mpr ?_
  linarith

theorem skewVariance_lt_mean_two_keys :
    ∃ v, skewVariance [10, 20] 1 1 = .ok v ∧ v < meanChunkSegments 1 1 [10, 20] :=
  skewVariance_lt_mean [10, 20] 1 1 (by decide) (by decide) (by decide) (by decide)

theorem skewVariance_two_chunks :
    skewVariance [10, 20] 1 1 = .ok 0 ∧ meanChunkSegments 1 1 [10, 20] = 1 := by
  constructor
  · decide +kernel
  · have hone : ∀ k < 2, chunkSegments 1 1 0 [10, 20] k = 1 := by
      intro k hk
      rcases (show k = 0 ∨ k = 1 by omega) with rfl | rfl
      · exact chunkSegments_singleton rfl (by decide)
      · exact chunkSegments_singleton rfl (by decide)
    have hcount : ([10, 20] : List ℤ).length ⌈/⌉ 1 = 2 := rfl
    rw [meanChunkSegments, hcount, Finset.sum_congr rfl fun k hk =>
      hone k (Finset.mem_range.mp hk)]
    norm_num

end PgmMetric

end LearnedIndexFramework.Metric
