import LearnedIndexFramework.Ours.Entries

/-! `UniformRandomEntries`: sorted distinct random keys.  A tenth more keys are allocated than are
drawn, so the spare ones are zero. -/

namespace LearnedIndexFramework.Ours

open Lib Benchmark

/-- `UniformRandomEntries` for the numbers that `rng` draws one after another.  `n * 1.1` is rounded
down, and the elements of a new `sequence` are zero until the loop writes the first `n`. -/
def uniformRandomEntries (n : ℕ) (rng : ℕ → Word) : Except String (List (Word × ℕ)) :=
  let n := if n = 0 then 200000000 else n
  let keys := List.replicate (11 * n / 10) (Word.ofNat 0)
  let keys := (List.range n).map rng ++ keys.drop n
  let keys := sortUnique keys
  if keys.length ≥ n then .ok (keys.take n).zipIdx else .error "keys.size() >= n"

structure Drawn (n : ℕ) (rng : ℕ → Word) (entries : List (Word × ℕ)) : Prop where
  length : entries.length = n
  increasing : (entries.map Prod.fst).Pairwise (· < ·)
  drawn : ∀ entry ∈ entries, entry.1 ∈ (List.range n).map rng
  index : ∀ (i : ℕ) (entry : Word × ℕ), entries[i]? = some entry → entry.2 = i

section Draws

variable {n : ℕ} {rng : ℕ → Word} {keys : List Word}

theorem uniformRandomEntries_eq (hn : 0 < n) (rng : ℕ → Word) :
    uniformRandomEntries n rng =
      let keys := sortUnique ((List.range n).map rng ++ List.replicate (n / 10) (.ofNat 0))
      if keys.length ≥ n then .ok (keys.take n).zipIdx else .error "keys.size() >= n" := by
  have hspare : 11 * n / 10 - n = n / 10 := by omega
  rw [uniformRandomEntries, if_neg hn.ne', List.drop_replicate, hspare]

theorem drawn_zipIdx (hlen : keys.length = n) (hsorted : keys.Pairwise (· < ·))
    (hmem : ∀ key ∈ keys, key ∈ (List.range n).map rng) : Drawn n rng keys.zipIdx where
  length := by rw [List.length_zipIdx, hlen]
  increasing := by rwa [List.zipIdx_map_fst]
  drawn entry hentry := hmem entry.1 (List.fst_mem_of_mem_zipIdx hentry)
  index _ _ := index_of_zipIdx

theorem zero_mem_take (hsorted : keys.Pairwise (· < ·)) (hzero : Word.ofNat 0 ∈ keys) (hn : 0 < n) :
    Word.ofNat 0 ∈ keys.take n := by
  obtain ⟨n, rfl⟩ := Nat.exists_eq_succ_of_ne_zero hn.ne'
  cases keys with
  | nil => exact absurd hzero List.not_mem_nil
  | cons key keys =>
    rw [List.take_succ_cons]
    rcases List.mem_cons.mp hzero with heq | hlater
    · exact heq ▸ List.mem_cons_self
    · exact absurd ((List.pairwise_cons.mp hsorted).1 _ hlater) (Fin.not_lt_zero key)

end Draws

/-- The keys are drawn ones exactly when the draws are distinct and the spare zeros are none, or a
drawn zero hides them. -/
theorem uniformRandomEntries_drawn_iff (n : ℕ) (rng : ℕ → Word) (hn : 0 < n) :
    (∃ entries, uniformRandomEntries n rng = .ok entries ∧ Drawn n rng entries) ↔
      ((List.range n).map rng).Nodup ∧ (n < 10 ∨ Word.ofNat 0 ∈ (List.range n).map rng) := by
  have hmem : ∀ key, key ∈ sortUnique ((List.range n).map rng ++
      List.replicate (n / 10) (Word.ofNat 0)) ↔
      key ∈ (List.range n).map rng ∨ (10 ≤ n ∧ key = .ofNat 0) := by
    intro key
    rw [mem_sortUnique, List.mem_append, List.mem_replicate]
    refine or_congr_right (and_congr_left fun _ => ?_)
    omega
  have hsorted := sortUnique_pairwise
    ((List.range n).map rng ++ List.replicate (n / 10) (Word.ofNat 0))
  have hlen : ((List.range n).map rng).length = n := by simp
  rw [uniformRandomEntries_eq hn]
  generalize sortUnique ((List.range n).map rng ++ List.replicate (n / 10) (Word.ofNat 0)) = keys
    at hmem hsorted
  dsimp only
  constructor
  · rintro ⟨entries, hok, hdrawn⟩
    split at hok
    case isFalse => cases hok
    case isTrue hge =>
      obtain rfl := Except.ok.inj hok
      have htake : (keys.take n).Nodup :=
        (hsorted.imp fun h => h.ne).sublist (List.take_sublist n keys)
      have hsub : keys.take n ⊆ (List.range n).map rng := by
        intro key hkey
        obtain ⟨i, hi, rfl⟩ := List.getElem_of_mem hkey
        exact hdrawn.drawn ((keys.take n)[i], i)
          (List.mk_mem_zipIdx_iff_getElem?.mpr (List.getElem?_eq_getElem hi))
      have hperm := (htake.subperm hsub).perm_of_length_le (by
        rw [hlen, List.length_take_of_le hge])
      refine ⟨hperm.nodup_iff.mp htake, ?_⟩
      rcases Nat.lt_or_ge n 10 with hlt | hten
      · exact .inl hlt
      · exact .inr (hsub (zero_mem_take hsorted ((hmem _).mpr (.inr ⟨hten, rfl⟩)) hn))
  · rintro ⟨hnodup, hzero⟩
    have hsame : ∀ key, key ∈ keys ↔ key ∈ (List.range n).map rng := by
      intro key
      rw [hmem]
      refine or_iff_left_of_imp fun ⟨hten, heq⟩ => ?_
      exact heq ▸ hzero.resolve_left (not_lt.mpr hten)
    have hperm : keys.Perm ((List.range n).map rng) :=
      (List.perm_ext_iff_of_nodup (hsorted.imp fun h => h.ne) hnodup).mpr hsame
    have hkeys : keys.length = n := hperm.length_eq.trans hlen
    refine ⟨_, if_pos hkeys.ge, ?_⟩
    rw [List.take_of_length_le hkeys.le]
    exact drawn_zipIdx hkeys hsorted fun key => (hsame key).mp

theorem uniformRandomEntries_three : ∃ entries,
    uniformRandomEntries 3 (fun i => .ofNat (7 * i % 10)) = .ok entries ∧
      Drawn 3 (fun i => .ofNat (7 * i % 10)) entries :=
  (uniformRandomEntries_drawn_iff 3 _ (by decide)).mpr (by decide)

theorem uniformRandomEntries_ten :
    ((List.range 11).map fun i => Word.ofNat (i + 1)).Nodup ∧
      uniformRandomEntries 10 (fun i => .ofNat (i + 1)) =
        .ok ((List.range 10).map Word.ofNat).zipIdx ∧
      ¬ ∃ entries, uniformRandomEntries 10 (fun i => .ofNat (i + 1)) = .ok entries ∧
        Drawn 10 (fun i => .ofNat (i + 1)) entries := by
  have hrun : uniformRandomEntries 10 (fun i => .ofNat (i + 1)) =
      .ok ((List.range 10).map Word.ofNat).zipIdx := by
    decide +kernel
  refine ⟨by decide, hrun, ?_⟩
  rintro ⟨entries, hok, hdrawn⟩
  obtain rfl := Except.ok.inj (hrun.symm.trans hok)
  have hzero := hdrawn.drawn (.ofNat 0, 0) (by decide)
  revert hzero
  decide

end LearnedIndexFramework.Ours
