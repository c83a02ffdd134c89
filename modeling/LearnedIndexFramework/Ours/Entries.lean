import LearnedIndexFramework.Benchmark.Files
import LearnedIndexFramework.Benchmark.Load

/-! `LoadEntries`: the distinct keys of a file, or a random sample of them.  The limit is compared
with the number of keys before deduplication and applied after it. -/

namespace LearnedIndexFramework.Ours

open Lib Benchmark

def resize (n : ℕ) (keys : List Word) : List Word :=
  keys.take n ++ List.replicate (n - keys.length) (.ofNat 0)

/-- `LoadEntries` on the bytes of a file.  `parlay::random_shuffle` is an argument. -/
def loadEntries (mem : Memory) (shuffle : ∀ keys : List Word, {ys : List Word // ys.Perm keys})
    (bytes : List UInt8) (limit : ℕ) : Except Fault (List (Word × ℕ)) := do
  let (n, data) ← loadBinaryFile mem (-1) (some bytes)
  let keys := sortUnique data
  let keys :=
    if limit > 0 ∧ (limit : ℤ) < n then
      (resize limit (shuffle keys).1).insertionSort (· ≤ ·)
    else keys
  return keys.zipIdx

def distinct (keys : List Word) : ℕ := keys.toFinset.card

structure Faithful (keys : List Word) (limit : ℕ) (entries : List (Word × ℕ)) : Prop where
  increasing : (entries.map Prod.fst).Pairwise (· < ·)
  mem : ∀ entry ∈ entries, entry.1 ∈ keys
  length : entries.length = if limit > 0 then min limit (distinct keys) else distinct keys
  index : ∀ (i : ℕ) (entry : Word × ℕ), entries[i]? = some entry → entry.2 = i

theorem length_sortUnique (keys : List Word) : (sortUnique keys).length = distinct keys := by
  have hset : (sortUnique keys).toFinset = keys.toFinset := by
    ext key
    simp [mem_sortUnique]
  rw [distinct, ← hset, List.toFinset_card_of_nodup (sortUnique_nodup keys)]

theorem distinct_le (keys : List Word) : distinct keys ≤ keys.length := List.toFinset_card_le keys

theorem index_of_zipIdx {keys : List Word} {i : ℕ} {entry : Word × ℕ}
    (hentry : keys.zipIdx[i]? = some entry) : entry.2 = i := by
  rw [List.getElem?_zipIdx] at hentry
  obtain ⟨key, -, rfl⟩ := Option.map_eq_some_iff.mp hentry
  exact Nat.zero_add i

theorem faithful_zipIdx {keys sample : List Word} {limit : ℕ} (hsample : sample.Pairwise (· < ·))
    (hmem : ∀ key ∈ sample, key ∈ keys)
    (hlength : sample.length = if limit > 0 then min limit (distinct keys) else distinct keys) :
    Faithful keys limit sample.zipIdx where
  increasing := by
    rw [List.zipIdx_map_fst]
    exact hsample
  mem entry hentry := hmem entry.1 (List.fst_mem_of_mem_zipIdx hentry)
  length := by
    rw [List.length_zipIdx]
    exact hlength
  index _ _ := index_of_zipIdx

variable {keys : List Word} {limit : ℕ}

theorem faithful_sample (hpos : 0 < limit) (hlimit : limit ≤ distinct keys) {ys : List Word}
    (hys : ys.Perm (sortUnique keys)) :
    Faithful keys limit ((resize limit ys).insertionSort (· ≤ ·)).zipIdx := by
  have hlen : ys.length = distinct keys := by rw [hys.length_eq, length_sortUnique]
  have htake : resize limit ys = ys.take limit := by
    rw [resize, Nat.sub_eq_zero_of_le (by omega), List.replicate_zero, List.append_nil]
  have hperm := List.perm_insertionSort (· ≤ ·) (ys.take limit)
  have hnodup : ((ys.take limit).insertionSort (· ≤ ·)).Nodup :=
    hperm.nodup_iff.mpr ((hys.nodup_iff.mpr (sortUnique_nodup keys)).sublist
      (List.take_sublist limit ys))
  rw [htake]
  refine faithful_zipIdx ?_ (fun key hkey => ?_) ?_
  · exact (List.pairwise_insertionSort (· ≤ ·) _).imp₂ (fun _ _ hle hne => lt_of_le_of_ne hle hne)
      hnodup
  · exact mem_sortUnique.mp (hys.mem_iff.mp (List.mem_of_mem_take (hperm.mem_iff.mp hkey)))
  · rw [if_pos hpos, hperm.length_eq, List.length_take, hlen]

section Load

variable {count : Word} (mem : Memory)
  (shuffle : ∀ keys : List Word, {ys : List Word // ys.Perm keys}) (limit : ℕ)

theorem loadEntries_eq (hcount : count.val = keys.length) (hmax : keys.length < 2 ^ 60) :
    loadEntries mem shuffle (bytesOfWords (count :: keys)) limit =
      .ok (if limit > 0 ∧ limit < keys.length then
        (resize limit (shuffle (sortUnique keys)).1).insertionSort (· ≤ ·)
      else sortUnique keys).zipIdx := by
  rw [loadEntries, roundTrip_counted hcount hmax mem]
  simp only [bind, Except.bind, pure, Except.pure, Nat.cast_lt]

theorem loadEntries_large (hcount : count.val = keys.length) (hmax : 2 ^ 60 ≤ keys.length) :
    loadEntries mem shuffle (bytesOfWords (count :: keys)) limit = .error .length := by
  have hload := loadBinaryFile_large mem (bytesOfWords keys) (hcount ▸ hmax)
  change loadBinaryFile mem (-1) (some (bytesOfWords (count :: keys))) = _ at hload
  rw [loadEntries, hload]
  rfl

/-- A limit below the number of keys and above the number of distinct ones is filled up with
zeros. -/
theorem loadEntries_faithful_iff (hcount : count.val = keys.length) :
    (∃ entries, loadEntries mem shuffle (bytesOfWords (count :: keys)) limit = .ok entries ∧
      Faithful keys limit entries) ↔
    keys.length < 2 ^ 60 ∧ ¬ (0 < limit ∧ limit < keys.length ∧ distinct keys < limit) := by
  rcases Nat.lt_or_ge keys.length (2 ^ 60) with hmax | hmax
  · rw [loadEntries_eq mem shuffle limit hcount hmax, and_iff_right hmax]
    have hok : ∀ entries', (∃ entries : List (Word × ℕ),
        (Except.ok entries' : Except Fault _) = .ok entries ∧ Faithful keys limit entries) ↔
        Faithful keys limit entries' :=
      fun entries' => ⟨fun ⟨_, heq, h⟩ => Except.ok.inj heq ▸ h, fun h => ⟨_, rfl, h⟩⟩
    rw [hok]
    by_cases hlimit : limit > 0 ∧ limit < keys.length
    · rw [if_pos hlimit]
      rcases Nat.lt_or_ge (distinct keys) limit with hlt | hge
      · refine iff_of_false (fun h => ?_) (fun h => h ⟨hlimit.1, hlimit.2, hlt⟩)
        have hlength := h.length
        rw [if_pos hlimit.1, List.length_zipIdx, List.length_insertionSort, resize,
          List.length_append, List.length_take, List.length_replicate] at hlength
        omega
      · exact iff_of_true (faithful_sample hlimit.1 hge (shuffle (sortUnique keys)).2) (by omega)
    · rw [if_neg hlimit]
      have hle := distinct_le keys
      refine iff_of_true (faithful_zipIdx (sortUnique_pairwise keys)
        (fun key => mem_sortUnique.mp) ?_) (by omega)
      rw [length_sortUnique]
      split <;> omega
  · rw [loadEntries_large mem shuffle limit hcount hmax]
    exact iff_of_false (fun ⟨_, heq, _⟩ => by cases heq) (by omega)

end Load

theorem loadEntries_five : ∃ entries, loadEntries (.filled 0 0) (fun keys => ⟨keys, .refl keys⟩)
    (bytesOfWords [5, 30, 10, 20, 10, 30]) 2 = .ok entries ∧ Faithful [30, 10, 20, 10, 30] 2 entries :=
  (loadEntries_faithful_iff (.filled 0 0) _ 2 rfl).mpr (by decide)

theorem loadEntries_zero : loadEntries (.filled 0 0) (fun keys => ⟨keys, .refl keys⟩)
    (bytesOfWords [5, 30, 10, 20, 10, 30]) 4 = .ok [(0, 0), (10, 1), (20, 2), (30, 3)] ∧
    ¬ Faithful [30, 10, 20, 10, 30] 4 [(0, 0), (10, 1), (20, 2), (30, 3)] := by
  refine ⟨by decide +kernel, fun h => ?_⟩
  have hmem := h.mem (0, 0) (by decide)
  revert hmem
  decide

end LearnedIndexFramework.Ours
