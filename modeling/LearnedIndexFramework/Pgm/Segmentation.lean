import LearnedIndexFramework.Metric.Segments
import LearnedIndexFramework.Pgm.Static

/-! The segments of the static index cover its points in runs. -/

namespace LearnedIndexFramework.Pgm

open Lib LearnedIndexFramework.Metric

def Rising (p q : ℤ × ℤ) : Prop := p.2 < q.2 ∧ q.2 - p.2 ≤ q.1 - p.1

theorem Rising.lt {p q : ℤ × ℤ} (h : Rising p q) : p.1 < q.1 := by
  obtain ⟨hlt, hle⟩ := h
  omega

def fresh : Option ℤ → List (ℤ × ℤ) → List (ℤ × ℤ)
  | _, [] => []
  | before, (x, y) :: points =>
    if before = some x then fresh before points else (x, y) :: fresh (some x) points

def hullOf (epsilon : ℕ) (c : Generator.CanonicalSegment) : Hull :=
  { epsilon, rectangle := c.rectangle, firstX := c.first }

inductive Covers (epsilon : ℕ) : Generator.CanonicalSegment → List (ℤ × ℤ) → Prop
  | single (p : ℤ × ℤ) : Covers epsilon
      { rectangle := ⟨bandEnd .uint64 epsilon .upper p, bandEnd .uint64 epsilon .lower p,
          bandEnd .uint64 epsilon .upper p, bandEnd .uint64 epsilon .lower p⟩
        first := p.1 } [p]
  | spans {c : Generator.CanonicalSegment} {run : List (ℤ × ℤ)} (hlen : 2 ≤ run.length)
      (h : Spans .uint64 epsilon (hullOf epsilon c) run) : Covers epsilon c run

structure Current (epsilon : ℕ) (opt : Hull) (cur : List (ℤ × ℤ)) : Prop where
  holds : Holds .uint64 opt cur
  drawn : Drawn .uint64 opt cur
  epsilon_eq : opt.epsilon = epsilon

section Loop

variable {epsilon : ℕ} {opt : Hull} {cur points : List (ℤ × ℤ)} {x y Y : ℤ}

theorem Covers.ne_nil {c : Generator.CanonicalSegment} {run : List (ℤ × ℤ)}
    (h : Covers epsilon c run) : run ≠ [] := by
  cases h with
  | single p => exact List.cons_ne_nil _ _
  | spans hlen _ =>
    rintro rfl
    simp at hlen

theorem Current.getSegment (h : Current epsilon opt cur) (hne : cur ≠ []) :
    Covers epsilon (Generator.getSegment opt) cur := by
  match cur, h, hne with
  | [p], h, _ =>
    obtain ⟨-, -, -, -, hr0, hr1⟩ := h.holds.first p rfl
    rw [h.epsilon_eq] at hr0 hr1
    have hone : opt.pointsInHull = 1 := h.holds.count
    rw [Generator.getSegment, if_pos hone, hr0, hr1, h.drawn.firstX p rfl]
    exact .single p
  | p :: q :: rest, h, _ =>
    have hcount : opt.pointsInHull ≠ 1 := by
      rw [h.holds.count]
      simp
    rw [Generator.getSegment, if_neg hcount]
    refine .spans (by simp) ?_
    rw [← h.epsilon_eq]
    exact (h.drawn.spans h.holds (by simp)).congr rfl rfl

theorem Current.addPoint (h : Current epsilon opt cur) (hlt : ∀ p ∈ cur, p.1 < x)
    (hmem : ∀ p ∈ cur, Limits.uint64.Mem p.2) (hy : Limits.uint64.Mem y) :
    (∃ opt', addPoint opt x y = .ok (true, opt') ∧ Current epsilon opt' (cur ++ [(x, y)])) ∨
      ¬FitsBands .uint64 epsilon (cur ++ [(x, y)]) ∧ ∃ opt' next,
        addPoint opt x y = .ok (false, opt') ∧ Covers epsilon (Generator.getSegment opt') cur ∧
        addPoint opt' x y = .ok (true, next) ∧ Current epsilon next [(x, y)] := by
  have hepsilon : 0 ≤ opt.epsilon := h.epsilon_eq ▸ Int.natCast_nonneg epsilon
  have hadd : Pgm.addPoint opt x y = .ok (opt.addPoint .uint64 x y) :=
    if_neg (h.holds.not_unordered hlt)
  obtain ⟨hiff, hholds⟩ := h.holds.addPoint hepsilon hlt hmem hy
  rw [h.epsilon_eq, ← fitsBands_iff] at hiff
  cases haccepted : (opt.addPoint .uint64 x y).1 with
  | true =>
    refine .inl ⟨(opt.addPoint .uint64 x y).2, ?_, hholds haccepted,
      h.drawn.addPoint h.holds haccepted, addPoint_epsilon.trans h.epsilon_eq⟩
    rw [hadd, ← haccepted]
  | false =>
    have hlen := two_le_pointsInHull haccepted
    rw [h.holds.count] at hlen
    have hspans := h.drawn.spans h.holds hlen
    rw [h.epsilon_eq] at hspans
    set opt' := (opt.addPoint .uint64 x y).2 with hopt'
    have heq : opt' = { opt with lastX := x, pointsInHull := 0 } := addPoint_rejected_eq haccepted
    have hempty : Holds .uint64 opt' [] := holds_nil (by rw [heq])
    have hfirst := addPoint_first (x := x) (y := y) hempty
    refine .inr ⟨fun hfits => ?_, opt', (opt'.addPoint .uint64 x y).2, ?_, ?_, ?_, hfirst.2,
      Drawn.addPoint_first hempty.count, ?_⟩
    · rw [hiff.mpr hfits] at haccepted
      cases haccepted
    · rw [hadd, ← haccepted]
    · rw [heq]
      exact .spans hlen (hspans.congr rfl rfl)
    · rw [Pgm.addPoint, if_neg (hempty.not_unordered (by simp)), ← hfirst.1]
    · rw [addPoint_epsilon, heq]
      exact h.epsilon_eq

theorem fitsBands_of_near {p : ℤ × ℤ} (hp : 0 ≤ p.2 ∧ p.2 + epsilon < 2 ^ 64)
    (hnear : ∀ q ∈ points, p.2 ≤ q.2 ∧ q.2 ≤ p.2 + 2 * epsilon) :
    FitsBands .uint64 epsilon points := by
  refine ⟨0, (p.2 + epsilon : ℤ), fun q hq => ?_⟩
  obtain ⟨hlo, hhi⟩ := hnear q hq
  rw [zero_mul, zero_add, Int.cast_le, Int.cast_le]
  simp only [Limits.uint64]
  omega

theorem segmentationLoop_fresh (opt : Hull) (x₀ : ℤ) (points : List (ℤ × ℤ)) :
    segmentationLoop opt x₀ points = segmentationLoop opt x₀ (fresh (some x₀) points) := by
  induction points generalizing opt x₀ with
  | nil => rfl
  | cons p points ih =>
    obtain ⟨x, y⟩ := p
    rw [segmentationLoop, fresh]
    by_cases hx : x = x₀
    · rw [if_pos hx, if_pos (congrArg some hx.symm)]
      exact ih opt x₀
    · rw [if_neg hx, if_neg (fun h => hx (Option.some.inj h).symm), segmentationLoop, if_neg hx]
      simp only [← ih]

theorem segmentationLoop_spec (h : Current epsilon opt cur) (hne : cur ≠ []) {x₀ : ℤ}
    (hlast : ∃ p ∈ cur, p.1 = x₀) (hrising : (cur ++ points).Pairwise Rising)
    (hrank : ∀ p ∈ cur ++ points, 0 ≤ p.2 ∧ p.2 ≤ Y) (hY : Y + epsilon < 2 ^ 64) :
    ∃ segments runs, segmentationLoop opt x₀ points = .ok segments ∧
      List.Forall₂ (Covers epsilon) segments runs ∧ runs.flatten = cur ++ points ∧
      ∀ p ∈ cur.head?, p.2 + (segments.length - 1) * (2 * epsilon + 1) ≤ Y := by
  induction points generalizing opt cur x₀ with
  | nil =>
    refine ⟨_, [cur], rfl, .cons (h.getSegment hne) .nil, by simp, fun p hp => ?_⟩
    have := (hrank p (by simpa using List.mem_of_mem_head? hp)).2
    simpa using this
  | cons q points ih =>
    obtain ⟨x, y⟩ := q
    have hcur : ∀ p ∈ cur, Rising p (x, y) := fun p hp =>
      (List.pairwise_append.mp hrising).2.2 p hp (x, y) List.mem_cons_self
    have hne₀ : x ≠ x₀ := by
      obtain ⟨p, hp, rfl⟩ := hlast
      exact (hcur p hp).lt.ne'
    have hmem : ∀ p ∈ cur ++ (x, y) :: points, Limits.uint64.Mem p.2 := fun p hp => by
      have := hrank p hp
      simp only [Limits.Mem, Limits.uint64]
      omega
    rw [segmentationLoop, if_neg hne₀]
    rw [List.append_cons] at hrising hrank
    rcases h.addPoint (fun p hp => (hcur p hp).lt) (fun p hp => hmem p (by simp [hp]))
      (hmem (x, y) (by simp)) with ⟨opt', hadd, h'⟩ | ⟨hfits, opt', next, hadd, hcovers, hnext, h'⟩
    · obtain ⟨segments, runs, hrun, hcovers, hflatten, hcount⟩ :=
        ih h' (by simp) ⟨(x, y), by simp, rfl⟩ hrising hrank
      refine ⟨segments, runs, ?_, hcovers, by simpa using hflatten, fun p hp => ?_⟩
      · rw [hadd]
        exact hrun
      · refine hcount p ?_
        rw [List.head?_append_of_ne_nil _ hne]
        exact hp
    · have hsuffix : [(x, y)] ++ points <:+ cur ++ [(x, y)] ++ points := by
        rw [List.append_assoc]
        exact List.suffix_append _ _
      obtain ⟨segments, runs, hrun, hcovers', hflatten, hcount⟩ := ih h' (by simp)
        ⟨(x, y), by simp, rfl⟩ (hrising.sublist hsuffix.sublist)
        fun p hp => hrank p (hsuffix.subset hp)
      refine ⟨Generator.getSegment opt' :: segments, cur :: runs, ?_, .cons hcovers hcovers', ?_,
        fun p hp => ?_⟩
      · rw [hadd]
        simp only [bind, Except.bind, Bool.false_eq_true, if_false, hnext, hrun, pure, Except.pure]
      · rw [List.flatten_cons, hflatten]
        simp
      · have hcount' := hcount (x, y) rfl
        have hfar : p.2 + (2 * epsilon + 1) ≤ y := by
          by_contra hnear
          have hpcur := List.mem_of_mem_head? hp
          have hp' := hrank p (by simp [hpcur])
          refine hfits (fitsBands_of_near (p := p) ⟨hp'.1, by omega⟩ fun q hq => ?_)
          have hy : (x, y).2 = y := rfl
          rcases List.mem_append.mp hq with hq | hq
          · have hqy := (hcur q hq).1
            obtain ⟨rest, rfl⟩ := List.head?_eq_some_iff.mp hp
            rcases List.mem_cons.mp hq with rfl | hq
            · omega
            · have := ((List.pairwise_cons.mp (List.pairwise_append.mp
                (List.pairwise_append.mp hrising).1).1).1 q hq).1
              omega
          · obtain rfl := List.mem_singleton.mp hq
            have := (hcur p hpcur).1
            omega
        have hpos : 0 < segments.length := by
          have hlength := hcovers'.length_eq
          rw [hlength, List.length_pos_iff]
          rintro rfl
          simp at hflatten
        obtain ⟨c, hc⟩ := Nat.exists_eq_succ_of_ne_zero hpos.ne'
        rw [hc] at hcount'
        rw [List.length_cons, hc]
        push_cast at hcount' ⊢
        simp only [add_sub_cancel_right] at hcount' ⊢
        calc p.2 + ((c : ℤ) + 1) * (2 * epsilon + 1)
            = p.2 + (2 * epsilon + 1) + c * (2 * epsilon + 1) := by ring
          _ ≤ y + c * (2 * epsilon + 1) := by gcongr
          _ ≤ Y := hcount'

end Loop

section Fresh

variable {points xs ys : List (ℤ × ℤ)}

theorem fresh_sublist (before : Option ℤ) (points : List (ℤ × ℤ)) :
    (fresh before points).Sublist points := by
  induction points generalizing before with
  | nil => exact .slnil
  | cons p points ih =>
    rw [fresh]
    split
    · exact (ih _).cons _
    · exact (ih _).cons_cons _

theorem fresh_skipSame (x₀ : ℤ) (points : List (ℤ × ℤ)) :
    fresh none (skipSame x₀ points) = fresh (some x₀) points := by
  induction points with
  | nil => rfl
  | cons p points ih =>
    obtain ⟨x, y⟩ := p
    rw [skipSame, fresh]
    by_cases hx : x = x₀
    · rw [if_pos hx, if_pos (congrArg some hx.symm), ih]
    · rw [if_neg hx, if_neg (fun h => hx (Option.some.inj h).symm), fresh, if_neg (by simp)]

theorem fresh_append (before : Option ℤ) (xs ys : List (ℤ × ℤ)) :
    fresh before (xs ++ ys) =
      fresh before xs ++ fresh ((xs.getLast?.map Prod.fst).or before) ys := by
  induction xs generalizing before with
  | nil => simp [fresh]
  | cons p xs ih =>
    obtain ⟨x, y⟩ := p
    rw [List.cons_append, fresh, fresh]
    have hlast : ((((x, y) :: xs).getLast?.map Prod.fst).or before) =
        (xs.getLast?.map Prod.fst).or (some x) := by
      cases xs with
      | nil => rfl
      | cons q xs =>
        rw [List.getLast?_cons_cons, List.getLast?_eq_some_getLast (List.cons_ne_nil q xs)]
        rfl
    split
    case isTrue hx =>
      rw [ih, hlast, hx]
    case isFalse hx =>
      rw [ih, hlast, List.cons_append]

theorem fresh_eq_self {before : Option ℤ} (h : points.Pairwise fun p q => p.1 ≠ q.1)
    (hbefore : ∀ p ∈ points, before ≠ some p.1) : fresh before points = points := by
  induction points generalizing before with
  | nil => rfl
  | cons p points ih =>
    obtain ⟨x, y⟩ := p
    obtain ⟨hp, h⟩ := List.pairwise_cons.mp h
    rw [fresh, if_neg (hbefore (x, y) List.mem_cons_self),
      ih h fun q hq => fun heq => hp q hq (Option.some.inj heq)]

end Fresh

section Parallel

variable {epsilon : ℕ} {points : List (ℤ × ℤ)} {a n : ℕ}

theorem makeSegmentation_spec (hrising : (fresh none points).Pairwise Rising)
    (hrank : ∀ p ∈ fresh none points, (a : ℤ) ≤ p.2 ∧ p.2 < a + n) (hn : a + n + epsilon < 2 ^ 64) :
    ∃ segments runs, makeSegmentation epsilon points = .ok segments ∧
      List.Forall₂ (Covers epsilon) segments runs ∧ runs.flatten = fresh none points ∧
      segments.length * (2 * epsilon + 1) ≤ n + 2 * epsilon := by
  match points, hrising, hrank with
  | [], _, _ => exact ⟨[], [], rfl, .nil, rfl, by simp⟩
  | (x, y) :: points, hrising, hrank =>
    have hempty : Holds .uint64 ({ epsilon } : Hull) [] := holds_nil rfl
    have hfirst := addPoint_first (x := x) (y := y) hempty
    have hcurrent : Current epsilon (({ epsilon } : Hull).addPoint .uint64 x y).2 [(x, y)] :=
      ⟨hfirst.2, Drawn.addPoint_first rfl, addPoint_epsilon⟩
    rw [fresh, if_neg (by simp)] at hrising hrank ⊢
    obtain ⟨segments, runs, hrun, hcovers, hflatten, hcount⟩ :=
      segmentationLoop_spec (Y := a + n - 1) hcurrent (by simp)
        (show ∃ p ∈ [(x, y)], p.1 = x from ⟨(x, y), by simp, rfl⟩) hrising (fun p hp => by
          have := hrank p hp
          omega) (by omega)
    refine ⟨segments, runs, ?_, hcovers, hflatten, ?_⟩
    · rw [makeSegmentation, addPoint, if_neg (hempty.not_unordered (by simp))]
      simp only [bind, Except.bind]
      rw [segmentationLoop_fresh]
      exact hrun
    · have hlast := hcount (x, y) rfl
      have hge := (hrank (x, y) List.mem_cons_self).1
      have hmul : ((segments.length * (2 * epsilon + 1) : ℕ) : ℤ) =
          ((segments.length : ℤ) - 1) * (2 * epsilon + 1) + (2 * epsilon + 1) := by
        push_cast
        ring
      omega

def chunkEnd (parallelism n j : ℕ) : ℕ := if j = parallelism then n else j * (n / parallelism)

theorem chunkEnd_le {parallelism n j : ℕ} (hj : j ≤ parallelism) :
    chunkEnd parallelism n j ≤ n := by
  unfold chunkEnd
  split
  · exact le_rfl
  · exact (Nat.mul_le_mul_right _ hj).trans (Nat.mul_div_le n parallelism)

theorem chunkEnd_le_succ {parallelism n i : ℕ} (hi : i < parallelism) :
    chunkEnd parallelism n i ≤ chunkEnd parallelism n (i + 1) := by
  rw [chunkEnd, if_neg hi.ne, chunkEnd]
  split
  · exact (Nat.mul_le_mul_right _ hi.le).trans (Nat.mul_div_le n parallelism)
  · exact Nat.mul_le_mul_right _ (Nat.le_succ i)

theorem fresh_chunk {parallelism i : ℕ} (hi : i < parallelism) :
    fresh none (chunk parallelism points i) = fresh
      ((points.take (chunkEnd parallelism points.length i)).getLast?.map Prod.fst)
      ((points.take (chunkEnd parallelism points.length (i + 1))).drop
        (chunkEnd parallelism points.length i)) := by
  have hlast : (if i = parallelism - 1 then points.length
      else i * (points.length / parallelism) + points.length / parallelism) =
      chunkEnd parallelism points.length (i + 1) := by
    rw [chunkEnd, Nat.succ_mul]
    split <;> split <;> omega
  have hend : i * (points.length / parallelism) = chunkEnd parallelism points.length i := by
    rw [chunkEnd, if_neg hi.ne]
  have hle := chunkEnd_le (n := points.length) hi.le
  simp only [chunk, hlast]
  rw [hend]
  generalize chunkEnd parallelism points.length i = first at hle ⊢
  rw [List.getLast?_eq_getElem?, List.length_take_of_le hle]
  cases first with
  | zero =>
    rw [List.take_zero]
    split <;> rfl
  | succ k =>
    have hget : (points.take (k + 1))[k + 1 - 1]? = points[k + 1 - 1]? := by
      rw [Nat.add_sub_cancel, List.getElem?_take_of_lt (Nat.lt_succ_self k)]
    rw [hget, Nat.add_sub_cancel, List.getElem?_eq_getElem (show k < points.length by omega)]
    simp only [Nat.zero_lt_succ, if_true, Option.map_some]
    exact fresh_skipSame _ _

theorem makeSegmentation_chunk {parallelism i : ℕ} (hi : i < parallelism)
    (hrising : (fresh none points).Pairwise Rising)
    (hrank : ∀ (j : ℕ) (q : ℤ × ℤ), points[j]? = some q → q.2 = j)
    (hn : points.length + epsilon < 2 ^ 64) :
    ∃ segments runs, makeSegmentation epsilon (chunk parallelism points i) = .ok segments ∧
      List.Forall₂ (Covers epsilon) segments runs ∧
      fresh none (points.take (chunkEnd parallelism points.length i)) ++ runs.flatten =
        fresh none (points.take (chunkEnd parallelism points.length (i + 1))) ∧
      segments.length * (2 * epsilon + 1) + chunkEnd parallelism points.length i ≤
        chunkEnd parallelism points.length (i + 1) + 2 * epsilon := by
  have hle := chunkEnd_le_succ (n := points.length) hi
  have hle' := chunkEnd_le (n := points.length) (Nat.succ_le_of_lt hi)
  have hfresh := @fresh_chunk points _ _ hi
  generalize chunkEnd parallelism points.length i = a at hle hfresh ⊢
  generalize chunkEnd parallelism points.length (i + 1) = b at hle hle' hfresh ⊢
  set part := (points.take b).drop a with hpart
  have htake : points.take b = points.take a ++ part := by
    have hsplit := List.take_append_drop a (points.take b)
    rw [List.take_take, min_eq_left hle] at hsplit
    exact hsplit.symm
  have happend : fresh none (points.take b) =
      fresh none (points.take a) ++ fresh none (chunk parallelism points i) := by
    rw [hfresh, htake, fresh_append, Option.or_none]
  have hsub : (fresh none (points.take b)).Sublist (fresh none points) := by
    have hsplit := fresh_append none (points.take b) (points.drop b)
    rw [List.take_append_drop] at hsplit
    rw [hsplit]
    exact List.sublist_append_left _ _
  obtain ⟨segments, runs, hrun, hcovers, hflatten, hcount⟩ :=
    @makeSegmentation_spec epsilon (chunk parallelism points i) a (b - a)
      (hrising.sublist ((List.sublist_append_right _ _).trans (happend ▸ hsub)))
      (fun p hp => by
        rw [hfresh] at hp
        obtain ⟨j, hj⟩ := List.mem_iff_getElem?.mp ((fresh_sublist _ _).subset hp)
        rw [hpart, List.getElem?_drop] at hj
        have hlt : a + j < b := by
          by_contra hge
          rw [List.getElem?_take_eq_none (by omega)] at hj
          cases hj
        rw [List.getElem?_take_of_lt hlt] at hj
        have := hrank _ _ hj
        omega) (by omega)
  refine ⟨segments, runs, hrun, hcovers, ?_, by omega⟩
  rw [hflatten, happend]

variable {parallelism : ℕ}

theorem makeSegmentation_chunks (hparallelism : 0 < parallelism) {j : ℕ} (hj : j ≤ parallelism)
    (hrising : (fresh none points).Pairwise Rising)
    (hrank : ∀ (j : ℕ) (q : ℤ × ℤ), points[j]? = some q → q.2 = j)
    (hn : points.length + epsilon < 2 ^ 64) :
    ∃ results runs, (List.range j).mapM (fun i =>
        makeSegmentation epsilon (chunk parallelism points i)) = .ok results ∧
      List.Forall₂ (Covers epsilon) results.flatten runs ∧
      runs.flatten = fresh none (points.take (chunkEnd parallelism points.length j)) ∧
      results.flatten.length * (2 * epsilon + 1) ≤
        chunkEnd parallelism points.length j + 2 * epsilon * j := by
  induction j with
  | zero =>
    refine ⟨[], [], rfl, .nil, ?_, by simp⟩
    rw [chunkEnd, if_neg hparallelism.ne, Nat.zero_mul, List.take_zero]
    rfl
  | succ j ih =>
    obtain ⟨results, runs, hrun, hcovers, hflatten, hcount⟩ := ih (by omega)
    obtain ⟨segments, runs', hrun', hcovers', hflatten', hcount'⟩ :=
      @makeSegmentation_chunk epsilon points _ _ (Nat.lt_of_succ_le hj) hrising hrank hn
    refine ⟨results ++ [segments], runs ++ runs', ?_, ?_, ?_, ?_⟩
    · rw [List.range_succ, List.mapM_append, hrun]
      simp only [List.mapM_cons, List.mapM_nil, hrun', bind, Except.bind, pure, Except.pure]
    · rw [List.flatten_append, List.flatten_singleton]
      exact List.rel_append hcovers hcovers'
    · rw [List.flatten_append, hflatten, hflatten']
    · have hmul : 2 * epsilon * (j + 1) = 2 * epsilon * j + 2 * epsilon := Nat.mul_succ _ _
      rw [List.flatten_append, List.flatten_singleton, List.length_append, Nat.add_mul]
      omega

theorem makeSegmentationPar_spec (hparallelism : 0 < parallelism)
    (hrising : (fresh none points).Pairwise Rising)
    (hrank : ∀ (j : ℕ) (q : ℤ × ℤ), points[j]? = some q → q.2 = j)
    (hn : points.length + epsilon < 2 ^ 64) :
    ∃ segments runs, makeSegmentationPar parallelism epsilon points = .ok segments ∧
      List.Forall₂ (Covers epsilon) segments runs ∧ runs.flatten = fresh none points ∧
      segments.length * (2 * epsilon + 1) ≤ points.length +
        2 * epsilon * if points.length < 2 ^ 15 then 1 else parallelism := by
  rw [makeSegmentationPar]
  split
  case isTrue hseq =>
    obtain ⟨segments, runs, hrun, hcovers, hflatten, hcount⟩ :=
      @makeSegmentation_spec epsilon points 0 points.length hrising
        (fun p hp => by
        obtain ⟨j, hj⟩ := List.mem_iff_getElem?.mp ((fresh_sublist _ _).subset hp)
        have hlt := (List.getElem?_eq_some_iff.mp hj).1
        have := hrank _ _ hj
        omega) (by omega)
    refine ⟨segments, runs, hrun, hcovers, hflatten, hcount.trans ?_⟩
    refine Nat.add_le_add_left (Nat.le_mul_of_pos_right _ ?_) _
    split <;> omega
  case isFalse hpar =>
    obtain ⟨results, runs, hrun, hcovers, hflatten, hcount⟩ :=
      makeSegmentation_chunks hparallelism le_rfl hrising hrank hn
    rw [chunkEnd, if_pos rfl] at hflatten hcount
    rw [List.take_length] at hflatten
    refine ⟨results.flatten, runs, bind_eq_ok.mpr ⟨_, hrun, rfl⟩, hcovers, hflatten, ?_⟩
    rwa [if_neg fun hlt : points.length < 2 ^ 15 => hpar (.inr hlt)]

end Parallel

end LearnedIndexFramework.Pgm
