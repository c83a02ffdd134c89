import LearnedIndexFramework.Pgm.Interface
import LearnedIndexFramework.Pgm.StaticSearch

/-! Runs of the interface with its static indexes, on 64-bit keys. -/

namespace LearnedIndexFramework.Pgm

open Lib LearnedIndexFramework.Metric

variable {V : Type} {parallelism : ℕ} {keys : List Word} {lo hi : Word}

def toInt (k : Word) : ℤ := (k : ℕ)

def staticSearch (parallelism : ℕ) (keys : List Word) (key : Word) : Except Stop (ℕ × ℕ) := do
  let t ← StaticPgm.build parallelism (keys.map toInt)
  let range ← t.search (toInt key)
  return (range.lo, range.hi)

def buildIndex (parallelism : ℕ) : Option (List Word) → Except Stop (Option StaticPgm)
  | none => .ok none
  | some keys => do
    let t ← StaticPgm.build parallelism (keys.map toInt)
    return some t

/-- `DynamicPGMIndex(first, last)` with the static index that it builds. -/
def construct [DecidableEq V] [Top V] (parallelism : ℕ) (keyValue : List (Word × V)) :
    Except Stop (DynamicPgm Word V × List (Option StaticPgm)) := do
  let t ← DynamicPgm.ofRange keyValue
  let indexes ← t.pgms.mapM (buildIndex parallelism)
  return (t, indexes)

theorem toInt_lt_toInt {j k : Word} : (toInt j) < (toInt k) ↔ j < k := by
  rw [toInt, toInt, Int.ofNat_lt, Fin.lt_def]

theorem toInt_mem {k : Word} (hk : k < ⊤) : 0 ≤ toInt k ∧ toInt k < maxKey := by
  have hlt := Fin.lt_def.mp hk
  have hle := (⊤ : Word).isLt
  rw [toInt, maxKey]
  omega

theorem rank_map_toInt (k : Word) (keys : List Word) :
    rank id (toInt k) (keys.map toInt) = rank id k keys := by
  rw [rank, rank, List.countP_map]
  refine List.countP_congr fun x _ => ?_
  simp only [Function.comp_apply, id, decide_eq_true_eq, toInt_lt_toInt]

theorem rankAbove_map_toInt (k : Word) (keys : List Word) :
    rankAbove id (toInt k) (keys.map toInt) = rankAbove id k keys := by
  rw [rankAbove, rankAbove, List.countP_map]
  refine List.countP_congr fun x _ => ?_
  simp only [Function.comp_apply, id, decide_eq_true_eq, ← not_lt, toInt_lt_toInt]

theorem exists_stands_toInt (hparallelism : 0 < parallelism) (htwenty : parallelism ≤ 20)
    (hsorted : keys.Pairwise (· < ·)) (hne : keys ≠ []) (hkeys : ∀ k ∈ keys, k < ⊤)
    (hlength : keys.length + 32 ≤ 5 * 2 ^ 19) :
    ∃ firstKey t init top, (keys.map toInt).head? = some firstKey ∧ firstKey < maxKey ∧
      StaticPgm.build parallelism (keys.map toInt) = .ok t ∧ t.n = (keys.map toInt).length ∧
      t.firstKey = firstKey ∧ StaticPgm.Stands t (keys.map toInt) (init ++ [top]) ∧
      top.length = 2 := by
  refine StaticPgm.exists_stands hparallelism htwenty
    (List.pairwise_map.mpr (hsorted.imp fun h => toInt_lt_toInt.mpr h)) (by simpa using hne)
    (fun x hx => ?_) (by rw [List.length_map]; omega) fun run hrun _ => ?_
  · obtain ⟨k, hk, rfl⟩ := List.mem_map.mp hx
    exact toInt_mem (hkeys k hk)
  · have hle := hrun.length_le
    rw [length_ranked, List.length_map] at hle
    rw [StaticPgm.epsilon]
    omega

theorem brackets_staticSearch (hparallelism : 0 < parallelism) (htwenty : parallelism ≤ 20)
    {inside : Set Word} (hinside : ∀ k ∈ inside, k < ⊤)
    (hnear : ∀ j ∈ inside, ∀ k ∈ inside, (k : ℕ) < j + 2 ^ 57) {limit : ℕ}
    (hlimit : limit + 32 ≤ 5 * 2 ^ 19) : Brackets inside limit (staticSearch parallelism) := by
  intro keys key hsorted hne hlength hkeys hkey
  have hsorted' : (keys.map toInt).Pairwise (· < ·) :=
    List.pairwise_map.mpr (hsorted.imp fun h => toInt_lt_toInt.mpr h)
  obtain ⟨firstKey, t, init, top, hhead, hfirst, hbuild, hn, hfirstKey, hstands, htop⟩ :=
    exists_stands_toInt hparallelism htwenty hsorted hne (fun k hk => hinside k (hkeys k hk))
      (by omega)
  have hnear' : max firstKey (toInt key) < firstKey + 2 ^ 57 := by
    rw [List.head?_map, Option.map_eq_some_iff] at hhead
    obtain ⟨first, hhead, rfl⟩ := hhead
    have hdist := hnear first (hkeys first (List.mem_of_mem_head? hhead)) key hkey
    rw [toInt, toInt]
    omega
  obtain ⟨r, hsearch, hlo, hhi, hle, -⟩ := StaticPgm.search_spec hstands htop hsorted' hhead
    hfirstKey hn (max_lt hfirst (toInt_mem (hinside key hkey)).2)
    (hstands.product_lt hhead hnear')
  rw [rank_map_toInt] at hlo
  rw [rankAbove_map_toInt] at hhi
  rw [List.length_map] at hle
  exact ⟨r.lo, r.hi, bind_eq_ok.mpr ⟨t, hbuild, bind_eq_ok.mpr ⟨r, hsearch, rfl⟩⟩, hlo, hhi, hle⟩

/-- The keys of a run with `n` pairs and calls.  From the first static index on, they lie within a
distance that no prediction can overflow. -/
structure Manageable (n : ℕ) (keys : List Word) : Prop where
  lt_top : ∀ k ∈ keys, k < ⊤
  length : n + 32 ≤ 5 * 2 ^ 19
  near : 2 ^ 21 ≤ n → ∀ j ∈ keys, ∀ k ∈ keys, (k : ℕ) < j + 2 ^ 57

theorem Manageable.of_lt {n : ℕ} (h : ∀ k ∈ keys, (k : ℕ) < 2 ^ 57) (hn : n + 32 ≤ 5 * 2 ^ 19) :
    Manageable n keys where
  lt_top k hk := by
    have hlt := h k hk
    exact Fin.lt_def.mpr (hlt.trans (by decide))
  length := hn
  near _ j _ k hk := by
    have hlt := h k hk
    omega

theorem Manageable.brackets {n : ℕ} (h : Manageable n keys) (hparallelism : 0 < parallelism)
    (htwenty : parallelism ≤ 20) (hn : 2 ^ 21 ≤ n) :
    Brackets {k | k ∈ keys} n (staticSearch parallelism) :=
  brackets_staticSearch hparallelism htwenty h.lt_top (h.near hn) h.length

section Run

variable [DecidableEq V] [Top V] {keyValue : List (Word × V)} {calls : List (Call Word V)}

/-- A bulk load of keys below the largest builds its container and the static index of its level, or
throws, the latter just when the range descends or a key would get the reserved value. -/
theorem construct_returns (hparallelism : 0 < parallelism) (htwenty : parallelism ≤ 20)
    (hkeys : ∀ pair ∈ keyValue, pair.1 < ⊤) (hlength : keyValue.length + 32 ≤ 5 * 2 ^ 19) :
    (DynamicPgm.Loadable keyValue ∧ ∃ t indexes,
      construct parallelism keyValue = .ok (t, indexes) ∧ t.Valid ∧
      (∀ k, view t.levels k = DynamicPgm.firstPair keyValue k) ∧
      List.Forall₂ (fun pgm index => buildIndex parallelism pgm = .ok index) t.pgms indexes) ∨
    ¬ DynamicPgm.Loadable keyValue ∧ ∃ e,
      construct parallelism keyValue = .error e ∧ DynamicPgm.Refuses e := by
  have hreturns := DynamicPgm.ofRange_returns keyValue
  cases hrun : DynamicPgm.ofRange keyValue with
  | error e =>
    rw [hrun] at hreturns
    exact .inr ⟨hreturns.1, e, by rw [construct, hrun]; rfl, hreturns.2⟩
  | ok t =>
    rw [hrun] at hreturns
    obtain ⟨hload, hvalid, hview⟩ := hreturns
    have hbuild : ∀ pgm ∈ t.pgms, ∃ index, buildIndex parallelism pgm = .ok index := by
      intro pgm hpgm
      cases pgm with
      | none => exact ⟨none, rfl⟩
      | some keys =>
        obtain ⟨hsorted, hne, hle, hmem⟩ := DynamicPgm.ofRange_pgms hrun hpgm
        obtain ⟨-, index, -, -, -, -, hbuild, -⟩ :=
          exists_stands_toInt hparallelism htwenty hsorted hne (fun k hk => by
            obtain ⟨pair, hpair, rfl⟩ := hmem k hk
            exact hkeys pair hpair) (by omega)
        exact ⟨some index, bind_eq_ok.mpr ⟨index, hbuild, rfl⟩⟩
    obtain ⟨indexes, hindexes⟩ := exists_mapM hbuild
    exact .inl ⟨hload, t, indexes,
      bind_eq_ok.mpr ⟨t, hrun, bind_eq_ok.mpr ⟨indexes, hindexes, rfl⟩⟩, hvalid, hview,
      mapM_eq_ok.mp hindexes⟩

def evenPairs (n : ℕ) : List (Word × Word) :=
  (List.range n).map fun i => (.ofNat (2 * i), .ofNat i)

theorem lt_of_mem_evenPairs {n : ℕ} (hn : n ≤ 2 ^ 56) {pair : Word × Word}
    (h : pair ∈ evenPairs n) : (pair.1 : ℕ) < 2 ^ 57 ∧ pair.2 ≠ ⊤ := by
  obtain ⟨i, hi, rfl⟩ := List.mem_map.mp h
  have hlt := List.mem_range.mp hi
  refine ⟨(Nat.mod_lt_of_lt (by omega) : 2 * i % 2 ^ 64 < 2 ^ 57), fun htop => ?_⟩
  have hval : i % 2 ^ 64 = 2 ^ 64 - 1 := congrArg Fin.val htop
  omega

theorem length_evenPairs (n : ℕ) : (evenPairs n).length = n := by
  rw [evenPairs, List.length_map, List.length_range]

theorem loadable_evenPairs {n : ℕ} (hn : n ≤ 2 ^ 56) : DynamicPgm.Loadable (evenPairs n) := by
  refine DynamicPgm.loadable_of_all (List.pairwise_map.mpr ?_)
    (List.all_eq_true.mpr fun pair hpair => decide_eq_true (lt_of_mem_evenPairs hn hpair).2)
  refine List.pairwise_lt_range.imp_of_mem fun {i j} hi hj hlt => Fin.le_def.mpr ?_
  have hi := List.mem_range.mp hi
  have hj := List.mem_range.mp hj
  change 2 * i % 2 ^ 64 ≤ 2 * j % 2 ^ 64
  omega

-- As many pairs go to a level with a static index.
example : ceilLogBase 8 2100000 = 8 := by decide +kernel

theorem construct_returns_many_pairs :
    (DynamicPgm.Loadable (evenPairs 2100000) ∧ ∃ t indexes,
      construct 4 (evenPairs 2100000) = .ok (t, indexes) ∧ t.Valid ∧
      (∀ k, view t.levels k = DynamicPgm.firstPair (evenPairs 2100000) k) ∧
      List.Forall₂ (fun pgm index => buildIndex 4 pgm = .ok index) t.pgms indexes) ∨
    ¬ DynamicPgm.Loadable (evenPairs 2100000) ∧ ∃ e,
      construct 4 (evenPairs 2100000) = .error e ∧ DynamicPgm.Refuses e :=
  construct_returns (by decide) (by decide)
    (fun _ hpair => lt_top_of_lt (lt_of_mem_evenPairs (by norm_num) hpair).1)
    (by rw [length_evenPairs]; norm_num)

def keysOf (keyValue : List (Word × V)) (calls : List (Call Word V)) : List Word :=
  keyValue.map Prod.fst ++ calls.map Call.key

omit [DecidableEq V] [Top V] in
theorem mem_keysOf_of_pair {pair : Word × V} (h : pair ∈ keyValue) :
    pair.1 ∈ keysOf keyValue calls :=
  List.mem_append_left _ (List.mem_map_of_mem h)

omit [DecidableEq V] [Top V] in
theorem mem_keysOf_of_call {c : Call Word V} (h : c ∈ calls) : c.key ∈ keysOf keyValue calls :=
  List.mem_append_right _ (List.mem_map_of_mem h)

/-- After a bulk load, every run returns, and answers as the map from keys to values does. -/
theorem run_answers (hload : DynamicPgm.Loadable keyValue)
    (hkeys : Manageable (keyValue.length + calls.length) (keysOf keyValue calls))
    (hparallelism : 0 < parallelism) (htwenty : parallelism ≤ 20) :
    ∃ t replies t', DynamicPgm.ofRange keyValue = .ok t ∧
      run (DynamicPgm.call (staticSearch parallelism)) t calls = .ok (replies, t') ∧
      Replies Call.apply Call.Answers (DynamicPgm.firstPair keyValue) calls replies ∧
      t'.Valid ∧ ∀ k, view t'.levels k =
        calls.foldl Call.apply (DynamicPgm.firstPair keyValue) k := by
  obtain ⟨t, replies, t', hofRange, hrun, hreplies, hstores, -⟩ := load_run hload hkeys.lt_top
    (fun pair hpair => mem_keysOf_of_pair hpair) (fun c hc => mem_keysOf_of_call hc) le_rfl
    (hkeys.brackets hparallelism htwenty)
  exact ⟨t, replies, t', hofRange, hrun, hreplies, hstores.valid, hstores.view_eq⟩

def manyCalls (n : ℕ) : List (Call Word Word) :=
  (List.range n).map (fun i => .put (.ofNat (2 * i + 1)) (.ofNat 7)) ++
    [.remove (.ofNat 4), .get (.ofNat 100000), .scan (.ofNat 10) 20]

theorem length_manyCalls (n : ℕ) : (manyCalls n).length = n + 3 := by
  rw [manyCalls, List.length_append, List.length_map, List.length_range]
  rfl

theorem length_many {m n : ℕ} (h : m + n + 35 ≤ 5 * 2 ^ 19) :
    (evenPairs m).length + (manyCalls n).length + 32 ≤ 5 * 2 ^ 19 := by
  rw [length_evenPairs, length_manyCalls]
  omega

theorem lt_of_mem_many {m n : ℕ} (h : m + n + 35 ≤ 5 * 2 ^ 19) {k : Word}
    (hk : k ∈ keysOf (evenPairs m) (manyCalls n)) : (k : ℕ) < 2 ^ 57 := by
  simp only [keysOf, manyCalls, List.mem_append, List.mem_map, List.mem_range] at hk
  rcases hk with ⟨pair, hpair, rfl⟩ | ⟨c, ⟨i, hi, rfl⟩ | hc, rfl⟩
  · exact (lt_of_mem_evenPairs (by omega) hpair).1
  · exact (Nat.mod_lt_of_lt (by omega) : (2 * i + 1) % 2 ^ 64 < 2 ^ 57)
  · revert c
    decide

theorem run_answers_many_pairs :
    ∃ t replies t', DynamicPgm.ofRange (evenPairs 2100000) = .ok t ∧
      run (DynamicPgm.call (staticSearch 4)) t (manyCalls 600) = .ok (replies, t') ∧
      Replies Call.apply Call.Answers (DynamicPgm.firstPair (evenPairs 2100000)) (manyCalls 600)
        replies ∧
      t'.Valid ∧ ∀ k, view t'.levels k =
        (manyCalls 600).foldl Call.apply (DynamicPgm.firstPair (evenPairs 2100000)) k :=
  run_answers (loadable_evenPairs (by norm_num))
    (.of_lt (fun _ hk => lt_of_mem_many (by norm_num) hk) (length_many (by norm_num)))
    (by decide) (by decide)

/-- A range query at the end of a run returns the entries of the map between its bounds. -/
theorem run_range (hload : DynamicPgm.Loadable keyValue)
    (hkeys : Manageable (keyValue.length + calls.length) (lo :: hi :: keysOf keyValue calls))
    (hparallelism : 0 < parallelism) (htwenty : parallelism ≤ 20) (hle : lo ≤ hi) :
    ∃ t replies t' xs, DynamicPgm.ofRange keyValue = .ok t ∧
      run (DynamicPgm.call (staticSearch parallelism)) t calls = .ok (replies, t') ∧
      t'.range (staticSearch parallelism) lo hi = .ok xs ∧ KeyAscending Prod.fst xs ∧
      ∀ k v, (k, v) ∈ xs ↔ lo ≤ k ∧ k ≤ hi ∧
        calls.foldl Call.apply (DynamicPgm.firstPair keyValue) k = some v := by
  obtain ⟨t, replies, t', hofRange, hrun, -, hstores, hsearchable⟩ := load_run hload hkeys.lt_top
    (fun pair hpair => List.mem_cons_of_mem _ (List.mem_cons_of_mem _ (mem_keysOf_of_pair hpair)))
    (fun c hc => List.mem_cons_of_mem _ (List.mem_cons_of_mem _ (mem_keysOf_of_call hc))) le_rfl
    (hkeys.brackets hparallelism htwenty)
  obtain ⟨xs, hxs, hasc, hmem⟩ := DynamicPgm.range_spec hstores.valid hsearchable hle
    List.mem_cons_self (List.mem_cons_of_mem _ List.mem_cons_self)
  refine ⟨t, replies, t', xs, hofRange, hrun, hxs, hasc, fun k v => ?_⟩
  rw [hmem, hstores.view_eq]

theorem run_range_many_pairs :
    ∃ t replies t' xs, DynamicPgm.ofRange (evenPairs 2100000) = .ok t ∧
      run (DynamicPgm.call (staticSearch 4)) t (manyCalls 600) = .ok (replies, t') ∧
      t'.range (staticSearch 4) 3 4000 = .ok xs ∧ KeyAscending Prod.fst xs ∧
      ∀ k v, (k, v) ∈ xs ↔ 3 ≤ k ∧ k ≤ 4000 ∧
        (manyCalls 600).foldl Call.apply (DynamicPgm.firstPair (evenPairs 2100000)) k = some v :=
  run_range (loadable_evenPairs (by norm_num))
    (.of_lt (List.forall_mem_cons.mpr ⟨by decide, List.forall_mem_cons.mpr ⟨by decide,
      fun _ hk => lt_of_mem_many (by norm_num) hk⟩⟩) (length_many (by norm_num)))
    (by decide) (by decide) (by decide)

end Run

end LearnedIndexFramework.Pgm
