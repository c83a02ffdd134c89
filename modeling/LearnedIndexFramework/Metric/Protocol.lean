import LearnedIndexFramework.Lib.Fallible
import LearnedIndexFramework.Metric.Duplicates
import LearnedIndexFramework.Metric.Optimal

/-! The two ways in which `datasets/generator.cpp` cuts points into segments: `PGM_metric` adds
each point and adds it again after a reset when it is rejected, `dataGenerator` checks it first.
They cut at the same points. -/

namespace LearnedIndexFramework.Metric.Generator

open Lib

/-- The states that `check_point`, `add_point` and `reset` lead to, with the last accepted `x`.
An `add_point` that throws changes nothing. -/
inductive Reachable (lim : Limits) (epsilon : ℤ) : Hull → Option ℤ → Prop
  | new : Reachable lim epsilon { epsilon } none
  | check {h : Hull} {last : Option ℤ} (x y : ℤ) : Reachable lim epsilon h last →
      Reachable lim epsilon (checkPoint lim h x y).2 last
  | add {h h' : Hull} {last : Option ℤ} {x y : ℤ} {accepted : Bool} :
      Reachable lim epsilon h last → addPoint lim h x y = .ok (accepted, h') →
      Reachable lim epsilon h' (if accepted then some x else last)
  | reset {h : Hull} {last : Option ℤ} : Reachable lim epsilon h last →
      Reachable lim epsilon h.reset last

/-- The loop of `PGM_metric`, with what the first `add_point` of each round returns. -/
def addOnly (lim : Limits) : Hull → List (ℤ × ℤ) → Except String (List Bool × Hull)
  | segment, [] => .ok ([], segment)
  | segment, (x, y) :: pts => do
    let (accepted, segment) ← addPoint lim segment x y
    if accepted then
      let (rest, segment) ← addOnly lim segment pts
      return (accepted :: rest, segment)
    else
      let (_, segment) ← addPoint lim segment.reset x y
      let (rest, segment) ← addOnly lim segment pts
      return (accepted :: rest, segment)

/-- `if (!pla.check_point(..)) pla.reset(); pla.add_point(..)` for each point, with what the two
calls return. -/
def checkThenAdd (lim : Limits) : Hull → List (ℤ × ℤ) → Except String (List (Bool × Bool) × Hull)
  | pla, [] => .ok ([], pla)
  | pla, (x, y) :: pts => do
    let (fits, pla) := checkPoint lim pla x y
    let (accepted, pla) ← addPoint lim (if fits then pla else pla.reset) x y
    let (rest, pla) ← checkThenAdd lim pla pts
    return ((fits, accepted) :: rest, pla)

def metricLoop (segment : Hull) (metric : ℕ) (i : ℤ) : List ℤ → Except String ℕ
  | [] => .ok metric
  | key :: keys => do
    let (accepted, segment) ← addPoint .uint64 segment key i
    if accepted then metricLoop segment metric (i + 1) keys
    else
      let (_, segment) ← addPoint .uint64 segment.reset key i
      metricLoop segment (metric + 1) (i + 1) keys

section Step

variable {lim : Limits} {h h' : Hull} {x y : ℤ} {epsilon : ℤ} {last : Option ℤ}

theorem addPoint_lastX_irrel (h0 : h.pointsInHull = 0) (a : ℤ) :
    ({ h with lastX := a } : Hull).addPoint lim x y = h.addPoint lim x y := by
  simp [Hull.addPoint, h0]

theorem addPoint_of_ordered (hord : 0 < h.pointsInHull → h.lastX < x) :
    addPoint lim h x y = .ok ((h.addPoint lim x y).1, (h.addPoint lim x y).2) :=
  if_neg fun hle => (hord hle.1).not_ge hle.2

theorem addPoint_of_reset (lim : Limits) (h : Hull) (x y : ℤ) :
    addPoint lim h.reset x y = .ok (true, (h.reset.addPoint lim x y).2) := by
  have hacc : (h.reset.addPoint lim x y).1 = true := addPoint_of_empty rfl
  rw [addPoint_of_ordered (h := h.reset) (fun hpos => absurd hpos (lt_irrefl 0)), hacc]

theorem Reachable.lastX_eq (hr : Reachable lim epsilon h last) (hpos : 0 < h.pointsInHull) :
    last = some h.lastX := by
  induction hr with
  | new => cases hpos
  | check x y _ ih =>
    rw [checkPoint_eq] at hpos ⊢
    dsimp only at hpos ⊢
    split at hpos
    · next hyes =>
      rw [if_pos hyes]
      exact ih hpos
    · cases hpos
  | @add h h' last x y accepted _ hadd _ =>
    rw [addPoint] at hadd
    split at hadd
    · cases hadd
    · obtain ⟨hacc, rfl⟩ := Prod.ext_iff.mp (Except.ok.inj hadd)
      cases accepted with
      | true => exact congrArg some addPoint_lastX.symm
      | false =>
        rw [addPoint_rejected_eq hacc] at hpos
        cases hpos
  | reset => cases hpos

theorem Reachable.ordered (hr : Reachable lim epsilon h last) (hx : ∀ a ∈ last, a < x) :
    0 < h.pointsInHull → h.lastX < x :=
  fun hpos => hx h.lastX (hr.lastX_eq hpos)

theorem checkPoint_true_iff (hord : 0 < h.pointsInHull → h.lastX < x) :
    (checkPoint lim h x y).1 = true ↔ ∃ h', addPoint lim h x y = .ok (true, h') := by
  rw [checkPoint_eq, addPoint_of_ordered hord]
  constructor
  · exact fun hacc => ⟨_, by rw [show (h.addPoint lim x y).1 = true from hacc]⟩
  · exact fun ⟨_, heq⟩ => congrArg Prod.fst (Except.ok.inj heq)

theorem checkPoint_keeps (hyes : (checkPoint lim h x y).1 = true) :
    (checkPoint lim h x y).2 = h := by
  rw [checkPoint_eq] at hyes ⊢
  exact if_pos hyes

end Step

section Runs

variable {lim : Limits} {h : Hull} {pts : List (ℤ × ℤ)}

theorem protocols_agree (hord : 0 < h.pointsInHull → ∀ p ∈ pts, h.lastX < p.1)
    (hsorted : pts.Pairwise fun p q => p.1 < q.1) :
    ∃ accepted h', addOnly lim h pts = .ok (accepted, h') ∧
      checkThenAdd lim h pts = .ok (accepted.map fun fits => (fits, true), h') := by
  induction pts generalizing h with
  | nil => exact ⟨[], h, rfl, rfl⟩
  | cons p pts ih =>
    obtain ⟨x, y⟩ := p
    obtain ⟨hlt, hsorted⟩ := List.pairwise_cons.mp hsorted
    have hadd : addPoint lim h x y = .ok ((h.addPoint lim x y).1, (h.addPoint lim x y).2) :=
      addPoint_of_ordered fun hpos => hord hpos (x, y) (by simp)
    have hnext : ∀ g : Hull, g.lastX = x → 0 < g.pointsInHull → ∀ p ∈ pts, g.lastX < p.1 :=
      fun g hg _ p hp => hg ▸ hlt p hp
    rw [addOnly, checkThenAdd, checkPoint_eq, hadd]
    cases hacc : (h.addPoint lim x y).1 with
    | true =>
      obtain ⟨rest, h', hleft, hright⟩ :=
        ih (hnext (h.addPoint lim x y).2 addPoint_lastX) hsorted
      refine ⟨true :: rest, h', ?_, ?_⟩
      · simp only [bind, Except.bind, if_true, hleft]
        rfl
      · simp only [if_true, hadd, hacc, bind, Except.bind, hright]
        rfl
    | false =>
      have hreset : (h.addPoint lim x y).2.reset.addPoint lim x y = h.reset.addPoint lim x y := by
        rw [addPoint_rejected_eq hacc]
        exact addPoint_lastX_irrel (h := h.reset) rfl x
      have hagain := addPoint_of_reset lim (h.addPoint lim x y).2 x y
      rw [hreset] at hagain
      have hreset' : addPoint lim ({ h with pointsInHull := 0 } : Hull).reset x y =
          .ok (true, (h.reset.addPoint lim x y).2) := addPoint_of_reset lim h x y
      obtain ⟨rest, h', hleft, hright⟩ :=
        ih (hnext (h.reset.addPoint lim x y).2 addPoint_lastX) hsorted
      refine ⟨false :: rest, h', ?_, ?_⟩
      · simp only [bind, Except.bind, Bool.false_eq_true, if_false, hagain, hleft]
        rfl
      · simp only [bind, Except.bind, Bool.false_eq_true, if_false, hreset', hright]
        rfl

end Runs

section Counters

variable {i : ℤ} {keys : List ℤ}

theorem metricLoop_of_addOnly {segment h' : Hull} {accepted : List Bool} (metric : ℕ)
    (hrun : addOnly .uint64 segment (ranked i keys) = .ok (accepted, h')) :
    metricLoop segment metric i keys = .ok (metric + accepted.count false) := by
  induction keys generalizing segment metric i accepted with
  | nil =>
    obtain ⟨rfl, -⟩ := Prod.ext_iff.mp (Except.ok.inj hrun)
    rfl
  | cons key keys ih =>
    obtain ⟨⟨yes, next⟩, hadd, hrest⟩ := bind_eq_ok.mp hrun
    rw [metricLoop, hadd]
    cases yes with
    | true =>
      obtain ⟨⟨rest, last⟩, hloop, hret⟩ := bind_eq_ok.mp hrest
      obtain ⟨rfl, rfl⟩ := Prod.ext_iff.mp (Except.ok.inj hret)
      rw [List.count_cons_of_ne (by decide)]
      exact ih metric hloop
    | false =>
      simp only [Bool.false_eq_true, if_false] at hrest
      obtain ⟨again, hagain, hrest⟩ := bind_eq_ok.mp hrest
      cases hagain.symm.trans (addPoint_of_reset .uint64 next key i)
      obtain ⟨⟨rest, last⟩, hloop, hret⟩ := bind_eq_ok.mp hrest
      obtain ⟨rfl, rfl⟩ := Prod.ext_iff.mp (Except.ok.inj hret)
      simp only [bind, Except.bind, Bool.false_eq_true, if_false, addPoint_of_reset,
        ih (metric + 1) hloop,
        List.count_cons_self]
      rw [Nat.add_assoc, Nat.add_comm 1]

theorem Pass.step_of_checkThenAdd {pass : Pass} {key : ℤ} {pts : List (ℤ × ℤ)}
    {answers : List (Bool × Bool)} {h' : Hull}
    (hrun : checkThenAdd .int64 pass.pla ((key, i) :: pts) = .ok (answers, h')) :
    ∃ pass' fits accepted rest, pass.step key i = .ok pass' ∧
      checkThenAdd .int64 pass'.pla pts = .ok (rest, h') ∧ answers = (fits, accepted) :: rest ∧
      pass'.generatedValue = pass.generatedValue + [fits].count false := by
  obtain ⟨⟨accepted, next⟩, hadd, hrest⟩ := bind_eq_ok.mp hrun
  obtain ⟨⟨rest, last⟩, hloop, hret⟩ := bind_eq_ok.mp hrest
  obtain ⟨rfl, rfl⟩ := Prod.ext_iff.mp (Except.ok.inj hret)
  have hstep : pass.step key i = .ok { pla := next, generatedValue :=
      if (checkPoint .int64 pass.pla key i).1 then pass.generatedValue
      else pass.generatedValue + 1 } := by
    change (addPoint .int64 _ key i >>= _) = _
    rw [hadd]
    rfl
  refine ⟨_, (checkPoint .int64 pass.pla key i).1, accepted, rest, hstep, hloop, rfl, ?_⟩
  cases (checkPoint .int64 pass.pla key i).1 with
  | true => rfl
  | false => rfl

theorem verificationLoop_of_checkThenAdd {localPass globalPass : Pass}
    {localAnswers globalAnswers : List (Bool × Bool)} {localPla globalPla : Hull}
    (hlocal : checkThenAdd .int64 localPass.pla (ranked i keys) = .ok (localAnswers, localPla))
    (hglobal : checkThenAdd .int64 globalPass.pla (ranked i keys) =
      .ok (globalAnswers, globalPla)) :
    verificationLoop localPass globalPass i keys = .ok
      (localPass.generatedValue + (localAnswers.map Prod.fst).count false,
        globalPass.generatedValue + (globalAnswers.map Prod.fst).count false) := by
  induction keys generalizing localPass globalPass i localAnswers globalAnswers with
  | nil =>
    obtain ⟨rfl, -⟩ := Prod.ext_iff.mp (Except.ok.inj hlocal)
    obtain ⟨rfl, -⟩ := Prod.ext_iff.mp (Except.ok.inj hglobal)
    rfl
  | cons key keys ih =>
    obtain ⟨passL, fitsL, -, restL, hstepL, hrestL, rfl, hvalueL⟩ :=
      Pass.step_of_checkThenAdd hlocal
    obtain ⟨passG, fitsG, -, restG, hstepG, hrestG, rfl, hvalueG⟩ :=
      Pass.step_of_checkThenAdd hglobal
    have hcount : ∀ (n : ℕ) (fits : Bool) (rest : List Bool),
        n + [fits].count false + rest.count false = n + (fits :: rest).count false := by
      intro n fits rest
      rw [Nat.add_assoc, ← List.count_append, List.singleton_append]
    rw [verificationLoop, hstepL, hstepG]
    simp only [bind, Except.bind, ih hrestL hrestG, hvalueL, hvalueG, hcount, List.map_cons]

end Counters

/-- `check_point` answers what `add_point` would for every point behind the last accepted one, and
a positive answer changes nothing.  So the two loops cut at the same points and end in the same
state, and after the check `add_point` never returns false. -/
theorem checkPoint_predicts (lim : Limits) (epsilon : ℤ) (h : Hull) (last : Option ℤ)
    (hr : Reachable lim epsilon h last) :
    (∀ x y, (∀ a ∈ last, a < x) →
      ((checkPoint lim h x y).1 = true ↔ ∃ h', addPoint lim h x y = .ok (true, h')) ∧
        ((checkPoint lim h x y).1 = true → (checkPoint lim h x y).2 = h)) ∧
    ∀ pts : List (ℤ × ℤ), (pts.Pairwise fun p q => p.1 < q.1) →
      (∀ a ∈ last, ∀ p ∈ pts, a < p.1) →
      ∃ accepted h', addOnly lim h pts = .ok (accepted, h') ∧
        checkThenAdd lim h pts = .ok (accepted.map fun fits => (fits, true), h') := by
  refine ⟨fun x y hx => ⟨checkPoint_true_iff (hr.ordered hx), checkPoint_keeps⟩,
    fun pts hsorted hlast => protocols_agree (fun hpos p hp => ?_) hsorted⟩
  exact hr.ordered (fun a ha => hlast a ha p hp) hpos

theorem checkPoint_predicts_two_points : ∃ h, Reachable .int64 1 h (some 20) ∧
    ((checkPoint .int64 h 30 9).1 = true ↔ ∃ h', addPoint .int64 h 30 9 = .ok (true, h')) ∧
    ∃ accepted h', addOnly .int64 h [(30, 9), (40, 10)] = .ok (accepted, h') ∧
      checkThenAdd .int64 h [(30, 9), (40, 10)] =
        .ok (accepted.map fun fits => (fits, true), h') := by
  have hr : Reachable .int64 1 _ (some 20) :=
    @Reachable.add .int64 1 _ _ _ 20 2 true (@Reachable.add .int64 1 _ _ _ 10 1 true .new rfl) rfl
  obtain ⟨hone, hruns⟩ := checkPoint_predicts .int64 1 _ (some 20) hr
  exact ⟨_, hr, (hone 30 9 (by simp)).1, hruns [(30, 9), (40, 10)] (by simp) (by simp)⟩

end LearnedIndexFramework.Metric.Generator
