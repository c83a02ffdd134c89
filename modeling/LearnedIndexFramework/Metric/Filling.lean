import LearnedIndexFramework.Lib.Rounding
import LearnedIndexFramework.Metric.Partition

/-! The searches of `dataGenerator`.  One that begins behind at least `2 * global_epsilon + 2`
points ends, so with enough rounds for its searches a run fills the buffer, or a generation step
ends it. -/

namespace LearnedIndexFramework.Metric.Generator

open Lib

def Over (globalEpsilon : ℤ) (P : Locals → Prop) : Except Stop Locals → Prop
  | .ok s => P s
  | .error (.step _) => True
  | .error (.search points) => points < 2 * globalEpsilon + 2

def Fills (globalEpsilon : ℤ) (num : ℕ) : Except Refusal (Except Stop Locals) → Prop
  | .ok r => Over globalEpsilon (Filled num) r
  | .error _ => False

def Resolves (e : ℕ) (P : Locals → Prop) (f : ℕ → Except Stop Locals) : Prop :=
  ∃ r, Over e P r ∧ Settles f r

section Resolves

variable {e : ℕ} {P Q : Locals → Prop} {f : ℕ → Except Stop Locals}

theorem over_error_iff {stop : Stop} : Over e P (.error stop) ↔ Over e Q (.error stop) := by
  cases stop <;> rfl

theorem Over.imp {r : Except Stop Locals} (h : Over e P r) (hPQ : ∀ s, P s → Q s) : Over e Q r := by
  cases r with
  | ok s => exact hPQ s h
  | error stop => exact over_error_iff.mp h

theorem Resolves.of_ok (h : Resolves e P f) (hf : ∀ n s, f n = .ok s → Q s) : Resolves e Q f := by
  obtain ⟨r, hover, n, hn⟩ := h
  refine ⟨r, ?_, n, hn⟩
  cases r with
  | ok s => exact hf n s (hn n le_rfl)
  | error stop => exact over_error_iff.mp hover

theorem Resolves.imp (h : Resolves e P f) (hPQ : ∀ s, P s → Q s) : Resolves e Q f := by
  obtain ⟨r, hover, hsettles⟩ := h
  exact ⟨r, hover.imp hPQ, hsettles⟩

theorem Resolves.bind {g : ℕ → Locals → Except Stop Locals} (hf : Resolves e P f)
    (hg : ∀ s, P s → Resolves e Q (g · s)) : Resolves e Q (fun n => f n >>= g n) := by
  obtain ⟨r, hover, hsettles⟩ := hf
  cases r with
  | ok s =>
    obtain ⟨r, hr, hsettles'⟩ := hg s hover
    exact ⟨r, hr, hsettles.bind_ok hsettles'⟩
  | error stop => exact ⟨.error stop, over_error_iff.mp hover, hsettles.bind_error⟩

theorem resolves_ok {s : Locals} (h : P s) : Resolves e P fun _ => .ok s :=
  ⟨.ok s, h, .const _⟩

theorem resolves_orStop {r : Except String Locals} (h : ∀ s, r = .ok s → P s) :
    Resolves e P fun _ => orStop r := by
  refine ⟨_, ?_, .const _⟩
  cases r with
  | error what => trivial
  | ok s => exact h s rfl

end Resolves

structure SegmentBefore (e : ℕ) (rank : ℤ) (h : Hull) : Prop where
  epsilon : h.epsilon = e
  segment : ∃ (i : ℤ) (keys : List ℤ), 1 ≤ i ∧ i + keys.length = rank ∧ keys.Pairwise (· < ·) ∧
    (∀ k ∈ keys, k ≤ h.lastX) ∧ Holds .int64 h (ranked i keys)

section Model

variable {e : ℕ} {rank key start : ℤ} {h pla : Hull} {accepted : Bool}

theorem segmentBefore_first (heps : h.epsilon = e) (hrank : 1 ≤ rank)
    (hadd : addPoint .int64 h.reset key rank = .ok (accepted, pla)) :
    SegmentBefore e (rank + 1) pla := by
  have hholds := (addPoint_first (x := key) (y := rank) (holds_nil rfl :
    Holds .int64 h.reset [])).2
  obtain rfl : (h.reset.addPoint .int64 key rank).2 = pla :=
    congrArg Prod.snd (Except.ok.inj ((addPoint_of_reset .int64 h key rank).symm.trans hadd))
  refine ⟨addPoint_epsilon.trans heps, rank, [key], hrank, by simp, by simp, fun k hk => ?_, hholds⟩
  rw [List.mem_singleton.mp hk, addPoint_lastX]

theorem SegmentBefore.add (hseg : SegmentBefore e rank h) (hrank : rank + e < 2 ^ 63)
    (hfits : (checkPoint .int64 h key rank).1 = true)
    (hadd : addPoint .int64 h key rank = .ok (accepted, pla)) : SegmentBefore e (rank + 1) pla := by
  obtain ⟨heps, i, keys, hi, rfl, hsorted, hlast, hholds⟩ := hseg
  rw [addPoint] at hadd
  split at hadd
  · cases hadd
  next hord =>
  obtain rfl : (h.addPoint .int64 key (i + keys.length)).2 = pla :=
    congrArg Prod.snd (Except.ok.inj hadd)
  have hlt : ∀ k ∈ keys, k < key := by
    intro k hk
    have hpos : 0 < keys.length := List.length_pos_of_mem hk
    have hcount := hholds.count
    rw [length_ranked] at hcount
    have := hlast k hk
    omega
  have hmem : ∀ p ∈ ranked i keys, Limits.int64.Mem p.2 := by
    intro p hp
    have := mem_ranked hp
    simp only [Limits.Mem, Limits.int64]
    omega
  have hrank' : Limits.int64.Mem (i + keys.length) := by
    simp only [Limits.Mem, Limits.int64]
    omega
  rw [checkPoint_eq] at hfits
  have hnext := (hholds.addPoint (heps ▸ Int.natCast_nonneg e)
    (fun p hp => hlt p.1 (mem_ranked hp).1) hmem hrank').2 hfits
  refine ⟨addPoint_epsilon.trans heps, i, keys ++ [key], hi, ?_, ?_, ?_, ?_⟩
  · rw [List.length_append, List.length_singleton]
    push_cast
    ring
  · rw [List.pairwise_append]
    exact ⟨hsorted, List.pairwise_singleton _ _, by simpa using hlt⟩
  · intro k hk
    rw [addPoint_lastX]
    rcases List.mem_append.mp hk with hk | hk
    · exact (hlt k hk).le
    · exact (List.mem_singleton.mp hk).le
  · rw [ranked_append]
    exact hnext

theorem SegmentBefore.search (hseg : SegmentBefore e rank h) (hrank : rank + e < 2 ^ 63)
    (hlong : 2 * e + 2 ≤ h.pointsInHull) (start : ℤ) :
    ∃ n r, searchOutside .int64 n h start rank = some r := by
  obtain ⟨heps, i, keys, hi, rfl, hsorted, -, hholds⟩ := hseg
  have hcount := hholds.count
  rw [length_ranked] at hcount
  exact searchOutside_of_long hsorted hholds heps (by omega) hrank start (by omega)

theorem SegmentBefore.search_eq_none (hseg : SegmentBefore e rank h) (hrank : rank + e < 2 ^ 63)
    (hpos : 0 < h.pointsInHull) (hshort : h.pointsInHull < 2 * e + 2) (hstart : h.lastX < start)
    (n : ℕ) : searchOutside .int64 n h start rank = none := by
  obtain ⟨heps, i, keys, hi, rfl, hsorted, hlast, hholds⟩ := hseg
  have hcount := hholds.count
  rw [length_ranked] at hcount
  have hne : keys ≠ [] := List.ne_nil_of_length_pos (by omega)
  exact searchOutside_of_short hne hsorted hholds heps (by omega) hrank
    (fun k hk => (hlast k hk).trans_lt hstart) (by omega) n

theorem searchOutside_mono {lim : Limits} {n m : ℕ} {r : ℤ × Hull}
    (hr : searchOutside lim n h start rank = some r) (hle : n ≤ m) :
    searchOutside lim m h start rank = some r := by
  induction n generalizing m h start with
  | zero => cases hr
  | succ n ih =>
    obtain ⟨m, rfl⟩ := Nat.exists_eq_succ_of_ne_zero (show m ≠ 0 by omega)
    rw [searchOutside] at hr ⊢
    split at hr
    · exact ih hr (by omega)
    · exact hr

theorem searchOutside_epsilon {lim : Limits} {n : ℕ} {r : ℤ × Hull}
    (hr : searchOutside lim n h start rank = some r) : r.2.epsilon = h.epsilon := by
  have hcheck : ∀ k, (checkPoint lim h k rank).2.epsilon = h.epsilon := by
    intro k
    rw [checkPoint_eq]
    dsimp only
    split <;> rfl
  induction n generalizing start with
  | zero => cases hr
  | succ n ih =>
    cases hyes : (checkPoint lim h start rank).1 with
    | true =>
      rw [searchOutside_of_fits hyes] at hr
      exact ih hr
    | false =>
      rw [searchOutside_of_not_fits hyes] at hr
      obtain rfl := Option.some.inj hr
      exact hcheck start

end Model

def Tracked (e : ℕ) (s : Locals) : Prop := SegmentBefore e s.curRank s.globalPla

namespace Tracked

variable {e n : ℕ} {c : Chance} {s s' : Locals}

theorem addChecked (hseg : Tracked e s) (hrank : (s.curRank : ℤ) + e < 2 ^ 63)
    (hpos : 1 ≤ s.curRank) (h : s.addChecked = .ok s') :
    Tracked e { s' with curRank := s.curRank + 1 } := by
  have hstep : s.addChecked =
      addPoint .int64 (if (checkPoint .int64 s.globalPla s.curKey s.curRank).1
        then (checkPoint .int64 s.globalPla s.curKey s.curRank).2
        else (checkPoint .int64 s.globalPla s.curKey s.curRank).2.reset) s.curKey s.curRank >>=
          fun r => .ok { s with globalPla := r.2 } := rfl
  obtain ⟨r, hadd, h⟩ := bind_eq_ok.mp (hstep ▸ h)
  cases h
  rw [Tracked, Nat.cast_succ]
  cases hfits : (checkPoint .int64 s.globalPla s.curKey s.curRank).1 with
  | true =>
    rw [hfits, if_pos rfl, checkPoint_keeps hfits] at hadd
    exact SegmentBefore.add hseg hrank hfits hadd
  | false =>
    rw [hfits, if_neg Bool.false_ne_true] at hadd
    refine segmentBefore_first ?_ (by omega) hadd
    rw [checkPoint_eq]
    dsimp only
    split <;> exact hseg.epsilon

theorem nextKey (hseg : Tracked e s) (hpos : 1 ≤ s.curRank)
    (hrank : (s.curRank : ℤ) + e < 2 ^ 63) (h : s.nextKey c true = .ok s') : Tracked e s' := by
  obtain ⟨t, hadd, h⟩ := bind_eq_ok.mp h
  cases h
  obtain ⟨globalPla, rfl⟩ := Advanced.addChecked hadd
  exact addChecked (s := { s.put _ with myGenerator := _ }) hseg hrank hpos hadd

theorem nextLocal {keys : ℕ} (hseg : Tracked e s) (hpos : 1 ≤ s.curRank)
    (hrank : (s.curRank : ℤ) + e < 2 ^ 63) (h : s.nextLocal c true keys = .ok s') :
    Tracked e s' := by
  obtain ⟨t, hadd, h⟩ := bind_eq_ok.mp h
  obtain ⟨g, -, h⟩ := bind_eq_ok.mp h
  cases h
  obtain ⟨globalPla, rfl⟩ := Advanced.addChecked hadd
  exact addChecked (s := { s.put _ with myGenerator := _ }) hseg hrank hpos hadd

theorem keyLoop (hseg : Tracked e s) (hpos : 1 ≤ s.curRank)
    (hrank : (s'.curRank : ℤ) + e < 2 ^ 63) (h : s.keyLoop c true n = .ok s') : Tracked e s' := by
  induction n generalizing s with
  | zero =>
    cases h
    exact hseg
  | succ n ih =>
    obtain ⟨t, hkey, h⟩ := bind_eq_ok.mp h
    have hone := (Advanced.nextKey hkey).curRank
    have hrest := (Advanced.keyLoop h).curRank
    exact ih (nextKey hseg hpos (by omega) hkey) (by omega) h

theorem nextLocal_stepIf {keys i j : ℕ} (hseg : Tracked e s) (hpos : 1 ≤ s.curRank)
    (hrank : (s.curRank : ℤ) + e < 2 ^ 63)
    (h : stepIf (i ≠ j) (Locals.nextLocal c true keys) s = .ok s') : Tracked e s' := by
  rw [stepIf] at h
  split at h
  · exact nextLocal hseg hpos hrank h
  · cases h
    exact hseg

theorem localLoop {localModels keys j : ℕ} (hj : j + n = localModels - 1) (hseg : Tracked e s)
    (hpos : 1 ≤ s.curRank) (hrank : (s'.curRank : ℤ) + e < 2 ^ 63)
    (h : s.localLoop c true localModels keys n j = .ok s') : Tracked e s' := by
  induction n generalizing s j with
  | zero =>
    cases h
    exact hseg
  | succ n ih =>
    obtain ⟨t, hkeys, h⟩ := bind_eq_ok.mp h
    obtain ⟨u, hnext, h⟩ := bind_eq_ok.mp h
    have hfirst := (Advanced.keyLoop hkeys).curRank
    have hsecond := (Advanced.stepIf (fun _ => Advanced.nextLocal) hnext).curRank
    have hrest := (Advanced.localLoop (by omega) h).curRank
    have htracked := keyLoop hseg hpos (by omega) hkeys
    exact ih (by omega) (nextLocal_stepIf htracked (by omega) (by omega) hnext) (by omega) h

theorem fillGlobal {localModels keys keysInLast : ℕ} (hseg : Tracked e s) (hpos : 1 ≤ s.curRank)
    (hrank : (s'.curRank : ℤ) + e < 2 ^ 63)
    (h : s.fillGlobal c true localModels keys keysInLast = .ok s') : Tracked e s' := by
  obtain ⟨t, hlocals, h⟩ := bind_eq_ok.mp h
  obtain ⟨u, hnext, h⟩ := bind_eq_ok.mp h
  have hfirst := (Advanced.localLoop (Nat.zero_add _) hlocals).curRank
  have hsecond := (Advanced.stepIf (fun _ => Advanced.nextLocal) hnext).curRank
  have hrest := (Advanced.keyLoop h).curRank
  have htracked := localLoop (Nat.zero_add _) hseg hpos (by omega) hlocals
  exact keyLoop (nextLocal_stepIf htracked (by omega) (by omega) hnext) (by omega) hrank h

theorem enterGlobal {keys : ℕ} {key : ℤ} {pla : Hull} {g : ConstraintGenerator}
    (heps : pla.epsilon = e) (hpos : 1 ≤ s.curRank)
    (h : s.enterGlobal c keys key pla g = .ok s') : Tracked e s' := by
  obtain ⟨r, hadd, h⟩ := bind_eq_ok.mp h
  obtain ⟨myGenerator, -, h⟩ := bind_eq_ok.mp h
  cases h
  rw [Tracked, Nat.cast_succ]
  exact segmentBefore_first heps (by omega) hadd

theorem nextGlobal_resolves {keys : ℕ} (hseg : Tracked e s) (hpos : 1 ≤ s.curRank)
    (hrank : (s.curRank : ℤ) + e < 2 ^ 63) :
    Resolves e (fun s' => Tracked e s' ∧ s'.curRank = s.curRank + 1)
      (fun fuel => s.nextGlobal c fuel keys) := by
  by_cases hend : ∃ n r, searchOutside .int64 n s.globalPla
      (s.myGenerator.generateOutsideGlobal c s.curRank).1 s.curRank = some r
  · obtain ⟨n, r, hr⟩ := hend
    have hrun : ∀ m ≥ n, s.nextGlobal c m keys = orStop (s.enterGlobal c keys r.1 r.2
        (s.myGenerator.generateOutsideGlobal c s.curRank).2) := by
      intro m hm
      simp only [Locals.nextGlobal, searchOutside_mono hr hm]
    have heps : r.2.epsilon = e := (searchOutside_epsilon hr).trans hseg.epsilon
    refine ⟨_, ?_, n, hrun⟩
    cases henter : s.enterGlobal c keys r.1 r.2
        (s.myGenerator.generateOutsideGlobal c s.curRank).2 with
    | error what => trivial
    | ok s' => exact ⟨enterGlobal heps hpos henter, (Advanced.enterGlobal rfl henter).curRank⟩
  · refine ⟨.error (.search s.globalPla.pointsInHull), ?_, 0, fun m _ => ?_⟩
    · by_contra hlong
      exact hend (SegmentBefore.search hseg hrank (by simp only [Over] at hlong; omega) _)
    · cases hsearch : searchOutside .int64 m s.globalPla
          (s.myGenerator.generateOutsideGlobal c s.curRank).1 s.curRank with
      | none => simp only [Locals.nextGlobal, hsearch]
      | some r => exact absurd ⟨m, r, hsearch⟩ hend

theorem nextGlobal_eq_search {fuel keys : ℕ} (hseg : Tracked e s)
    (hrank : (s.curRank : ℤ) + e < 2 ^ 63) (hpos : 0 < s.globalPla.pointsInHull)
    (hshort : s.globalPla.pointsInHull < 2 * e + 2)
    (hstart : s.globalPla.lastX < (s.myGenerator.generateOutsideGlobal c s.curRank).1) :
    s.nextGlobal c fuel keys = .error (.search s.globalPla.pointsInHull) := by
  simp only [Locals.nextGlobal, SegmentBefore.search_eq_none hseg hrank hpos hshort hstart]

theorem nextGlobal_stepIf {keys i j : ℕ} (hseg : Tracked e s) (hpos : 1 ≤ s.curRank)
    (hrank : (s.curRank : ℤ) + e < 2 ^ 63) :
    Resolves e (fun s' => Tracked e s' ∧ s.curRank ≤ s'.curRank ∧ s'.curRank ≤ s.curRank + 1)
      (fun fuel => stepIf (i ≠ j) (Locals.nextGlobal c fuel keys) s) := by
  by_cases hij : i = j
  · simp only [stepIf, hij, ne_eq, not_true_eq_false, decide_false, Bool.false_eq_true, if_false]
    exact resolves_ok ⟨hseg, le_rfl, Nat.le_succ _⟩
  · simp only [stepIf, ne_eq, hij, not_false_eq_true, decide_true, if_true]
    refine (nextGlobal_resolves hseg hpos hrank).imp fun s' h => ⟨h.1, ?_, h.2.le⟩
    exact h.2 ▸ Nat.le_succ _

theorem globalLoop_resolves {globalValue localModels keys keysInLast i k : ℕ}
    (hmodels : 1 ≤ localModels)
    (hk : (localModels - 1) * (keys - 1 + 1) + (keysInLast - 1) = k) (hseg : Tracked e s)
    (hpos : 1 ≤ s.curRank) (hroom : ((s.curRank + n * (k + 1) : ℕ) : ℤ) + e < 2 ^ 63) :
    Resolves e (fun s' => Tracked e s' ∧ 1 ≤ s'.curRank ∧ s'.curRank ≤ s.curRank + n * (k + 1))
      (fun fuel => s.globalLoop c fuel globalValue localModels keys keysInLast n i) := by
  induction n generalizing s i with
  | zero => exact resolves_ok ⟨hseg, hpos, Nat.le_add_right _ _⟩
  | succ n ih =>
    rw [Nat.succ_mul] at hroom
    have hfill : Resolves e (fun t => Tracked e t ∧ t.curRank = s.curRank + k)
        fun _ => orStop (s.fillGlobal c true localModels keys keysInLast) := by
      refine resolves_orStop fun t hfill => ?_
      have hrank := (Advanced.fillGlobal hmodels hfill).curRank
      rw [hk] at hrank
      exact ⟨fillGlobal hseg hpos (by omega) hfill, hrank⟩
    refine hfill.bind fun t ⟨ht, htrank⟩ => ?_
    refine (nextGlobal_stepIf ht (by omega) (by omega)).bind fun u ⟨hu, hge, hle⟩ => ?_
    refine (ih hu (by omega) (by omega)).imp fun s' ⟨hs', hpos', hle'⟩ => ⟨hs', hpos', ?_⟩
    rw [Nat.succ_mul]
    omega

end Tracked

section Fill

variable {c : Chance} {e localValue globalValue num : ℕ} {localEpsilon : ℤ} {s : Locals}

theorem start_tracked {keys : ℕ} (h : Locals.start c localEpsilon e keys = .ok s) :
    Tracked e s := by
  obtain ⟨g, -, h⟩ := bind_eq_ok.mp h
  obtain ⟨r, hadd, h⟩ := bind_eq_ok.mp h
  cases h
  exact segmentBefore_first (h := { epsilon := e }) rfl le_rfl hadd

theorem fill_resolves (hglobal : 1 ≤ globalValue) (hlocal : globalValue ≤ localValue)
    (hnum : localValue ≤ num) (hrank : (num : ℤ) + 2 + e < 2 ^ 63) :
    Resolves e (fun _ => True)
      (fun fuel => Locals.fill c fuel localEpsilon e localValue globalValue num) := by
  have hmodels : 1 ≤ localValue / globalValue := (Nat.one_le_div_iff hglobal).mpr hlocal
  have hkeys : localValue / globalValue ≤ num / globalValue := Nat.div_le_div_right hnum
  have hcount : (globalValue - 1) * (num / globalValue - 1 + 1) ≤ num := by
    rw [Nat.sub_add_cancel (hmodels.trans hkeys)]
    exact (Nat.mul_le_mul_right _ (Nat.sub_le _ _)).trans (Nat.mul_div_le num globalValue)
  have hstart : Resolves e (fun s => Tracked e s ∧ s.curRank = 2)
      fun _ => orStop (Locals.start c localEpsilon e
        (num / globalValue / (localValue / globalValue))) :=
    resolves_orStop fun s hs => ⟨start_tracked hs, (start_spec hs).1⟩
  refine hstart.bind fun s₁ ⟨hs₁, hrank₁⟩ => ?_
  refine (hs₁.globalLoop_resolves hmodels (fillGlobal_count hmodels hkeys) (by omega)
    (by omega)).bind fun s₂ ⟨hs₂, hpos₂, hrank₂⟩ => ?_
  refine (hs₂.nextGlobal_stepIf hpos₂ (by omega)).bind fun s₃ _ => ?_
  exact resolves_orStop fun _ _ => trivial

end Fill

def Chance.steady : Chance where
  distribx _ := 101
  distriby _ := 1
  randomGen _ := 500
  undefined := -2 ^ 63
  distribx_mem _ := by decide
  distriby_mem _ := by decide
  randomGen_mem _ := by decide
  longDouble := extended80
  double := binary64

theorem exists_three_keys : ∃ s t, Locals.start .steady 1 1 3 = .ok s ∧
    s.fillGlobal .steady true 1 3 3 = .ok t ∧ t.globalPla.pointsInHull = 3 ∧ t.curRank = 4 ∧
      t.globalPla.lastX < (t.myGenerator.generateOutsideGlobal .steady 4).1 := by
  have hrun : ((Locals.start .steady 1 1 3).toOption.bind fun s =>
      (s.fillGlobal .steady true 1 3 3).toOption).any (fun t =>
        t.globalPla.pointsInHull = 3 ∧ t.curRank = 4 ∧
          t.globalPla.lastX < (t.myGenerator.generateOutsideGlobal .steady 4).1) = true := by
    decide +kernel
  cases hstart : Locals.start .steady 1 1 3 with
  | error what => simp [hstart, Except.toOption] at hrun
  | ok s =>
    cases hfill : s.fillGlobal .steady true 1 3 3 with
    | error what => simp [hstart, hfill, Except.toOption] at hrun
    | ok t => exact ⟨s, t, rfl, hfill, by simpa [hstart, hfill, Except.toOption] using hrun⟩

end LearnedIndexFramework.Metric.Generator
