import Mathlib.Data.List.Count
import Mathlib.Data.Nat.Bitwise
import LearnedIndexFramework.Lib.Run

/-! The version lock of the data nodes of `competitor/alexol`: a counter and a flag in one word,
taken and released by any threads, one atomic step of one thread at a time. -/

namespace LearnedIndexFramework.Alexol

def lockSet : UInt32 := (1 : UInt32) <<< 31

def lockMask : UInt32 := ((1 : UInt32) <<< 31) - 1

section Words

variable {w : UInt32}

theorem toNat_lockSet : lockSet.toNat = 2 ^ 31 := rfl

theorem toNat_and_lockMask (w : UInt32) : (w &&& lockMask).toNat = w.toNat % 2 ^ 31 :=
  (UInt32.toNat_and w lockMask).trans (Nat.and_two_pow_sub_one_eq_mod w.toNat 31)

theorem and_lockSet_eq_zero : w &&& lockSet = 0 ↔ w.toNat < 2 ^ 31 := by
  have hw := w.toNat_lt
  rw [← UInt32.toNat_inj, UInt32.toNat_and, toNat_lockSet, UInt32.toNat_zero, Nat.and_two_pow,
    Nat.testBit_eq_decide_div_mod_eq]
  by_cases hbit : w.toNat / 2 ^ 31 % 2 = 1
  · simp only [hbit, decide_true, Bool.toNat_true]
    omega
  · simp only [hbit, decide_false, Bool.toNat_false]
    omega

theorem and_lockMask_eq (hw : w.toNat < 2 ^ 31) : w &&& lockMask = w :=
  UInt32.toNat.inj ((toNat_and_lockMask w).trans (Nat.mod_eq_of_lt hw))

theorem toNat_or_lockSet (hw : w.toNat < 2 ^ 31) : (w ||| lockSet).toNat = w.toNat + 2 ^ 31 := by
  have hor := Nat.two_pow_add_eq_or_of_lt hw 1
  rw [Nat.mul_one] at hor
  rw [UInt32.toNat_or, toNat_lockSet, Nat.or_comm, ← hor, Nat.add_comm]

end Words

namespace VersionLock

open Lib Function

/-- Where a thread stands in `try_get_lock` and `release_lock`. -/
inductive Stage
  | idle
  | loaded (v : UInt32)
  | holding
  | releasing (v : UInt32)
  deriving DecidableEq

structure State (ι : Type) where
  lock : UInt32 := 0
  stages : ι → Stage := fun _ => .idle

inductive Act
  | tryGetLock
  | releaseLock
  deriving DecidableEq

inductive Reply
  | running
  | failed
  | acquired
  | released
  deriving DecidableEq

variable {ι : Type}

/-- `test_lock_set`, with the version it reads. -/
def State.testLockSet (s : State ι) : Bool × UInt32 := (s.lock &&& lockSet != 0, s.lock)

def State.testLockVersionChange (s : State ι) (oldVersion : UInt32) : Bool := oldVersion != s.lock

variable [DecidableEq ι]

def State.set (s : State ι) (t : ι) (stage : Stage) : State ι :=
  { s with stages := update s.stages t stage }

def State.tryGetLock (s : State ι) (t : ι) : Except Unit (Reply × State ι) :=
  match s.stages t with
  | .idle =>
    if s.lock &&& lockSet ≠ 0 then .ok (.failed, s)
    else .ok (.running, s.set t (.loaded s.lock))
  | .loaded v =>
    let oldValue := v &&& lockMask
    let newValue := v ||| lockSet
    if s.lock = oldValue then .ok (.acquired, { s.set t .holding with lock := newValue })
    else .ok (.failed, s.set t .idle)
  | _ => .error ()

def State.releaseLock (s : State ι) (t : ι) : Except Unit (Reply × State ι) :=
  match s.stages t with
  | .holding => .ok (.running, s.set t (.releasing s.lock))
  | .releasing v => .ok (.released, { s.set t .idle with lock := v + 1 - lockSet })
  | _ => .error ()

/-- One atomic step of thread `t`, or an error when its stage does not allow it. -/
def State.step (s : State ι) : ι × Act → Except Unit (Reply × State ι)
  | (t, .tryGetLock) => s.tryGetLock t
  | (t, .releaseLock) => s.releaseLock t

def completePairs : (taken : Bool) → List Reply → ℕ
  | _, [] => 0
  | _, .acquired :: rs => completePairs true rs
  | taken, .released :: rs => taken.toNat + completePairs false rs
  | taken, _ :: rs => completePairs taken rs

def Stage.holds : Stage → Bool
  | .holding | .releasing _ => true
  | _ => false

section Steps

variable {s s' : State ι} {t u : ι} {r : Reply} {stage : Stage}

@[simp] theorem set_lock : (s.set t stage).lock = s.lock := rfl

@[simp] theorem set_stages_self : (s.set t stage).stages t = stage := by
  simp [State.set]

theorem set_stages_of_ne (hne : u ≠ t) : (s.set t stage).stages u = s.stages u := by
  simp [State.set, hne]

theorem cases_set {other : Stage} (hu : (s.set t stage).stages u = other) :
    u = t ∧ other = stage ∨ u ≠ t ∧ s.stages u = other := by
  by_cases hut : u = t
  · rw [hut, set_stages_self] at hu
    exact .inl ⟨hut, hu.symm⟩
  · exact .inr ⟨hut, (set_stages_of_ne hut).symm.trans hu⟩

theorem step_tryGetLock (hstep : s.step (t, .tryGetLock) = .ok (r, s')) :
    (s.stages t = .idle ∧ s.lock &&& lockSet ≠ 0 ∧ r = .failed ∧ s' = s) ∨
    (s.stages t = .idle ∧ s.lock &&& lockSet = 0 ∧ r = .running ∧
      s' = s.set t (.loaded s.lock)) ∨
    (∃ v, s.stages t = .loaded v ∧ s.lock = v &&& lockMask ∧ r = .acquired ∧
      s' = { s.set t .holding with lock := v ||| lockSet }) ∨
    (∃ v, s.stages t = .loaded v ∧ s.lock ≠ v &&& lockMask ∧ r = .failed ∧
      s' = s.set t .idle) := by
  simp only [State.step, State.tryGetLock] at hstep
  split at hstep
  · next hstage =>
    split at hstep
    · next hset =>
      cases hstep
      exact .inl ⟨hstage, hset, rfl, rfl⟩
    · next hset =>
      cases hstep
      exact .inr (.inl ⟨hstage, not_not.mp hset, rfl, rfl⟩)
  · next v hstage =>
    split at hstep
    · next heq =>
      cases hstep
      exact .inr (.inr (.inl ⟨v, hstage, heq, rfl, rfl⟩))
    · next hne =>
      cases hstep
      exact .inr (.inr (.inr ⟨v, hstage, hne, rfl, rfl⟩))
  · cases hstep

theorem step_releaseLock (hstep : s.step (t, .releaseLock) = .ok (r, s')) :
    (s.stages t = .holding ∧ r = .running ∧ s' = s.set t (.releasing s.lock)) ∨
    (∃ v, s.stages t = .releasing v ∧ r = .released ∧
      s' = { s.set t .idle with lock := v + 1 - lockSet }) := by
  simp only [State.step, State.releaseLock] at hstep
  split at hstep
  · next hstage =>
    cases hstep
    exact .inl ⟨hstage, rfl, rfl⟩
  · next v hstage =>
    cases hstep
    exact .inr ⟨v, hstage, rfl, rfl⟩
  · cases hstep

end Steps

section Counting

inductive Word (s : State ι) (n : ℕ) : Prop
  | free : (∀ u, (s.stages u).holds = false) → n ≤ 2 ^ 31 → s.lock.toNat = n → Word s n
  | held (t : ι) : (s.stages t).holds = true → (∀ u, (s.stages u).holds = true → u = t) →
      n < 2 ^ 31 → s.lock.toNat = n + 2 ^ 31 → Word s n

structure Released (s : State ι) (n : ℕ) : Prop where
  word : Word s n
  loaded : ∀ {u v}, s.stages u = .loaded v → v.toNat < 2 ^ 31
  releasing : ∀ {u v}, s.stages u = .releasing v → v = s.lock

variable {s s' : State ι} {t : ι} {r : Reply} {n : ℕ} {c : ι × Act} {cs : List (ι × Act)}
  {rs : List Reply}

omit [DecidableEq ι] in
theorem Released.initial : Released ({} : State ι) 0 where
  word := .free (fun _ => rfl) (Nat.zero_le _) rfl
  loaded h := by cases h
  releasing h := by cases h

theorem holds_set {stage : Stage} (hsame : stage.holds = (s.stages t).holds) (u : ι) :
    ((s.set t stage).stages u).holds = (s.stages u).holds := by
  by_cases hu : u = t
  · rw [hu, set_stages_self, hsame]
  · rw [set_stages_of_ne hu]

theorem Released.set {stage : Stage} (h : Released s n)
    (hsame : stage.holds = (s.stages t).holds)
    (hloaded : ∀ v, stage = .loaded v → v.toNat < 2 ^ 31)
    (hreleasing : ∀ v, stage = .releasing v → v = s.lock) : Released (s.set t stage) n where
  word := by
    cases h.word with
    | free hfree hn hlock => exact .free (fun u => (holds_set hsame u).trans (hfree u)) hn hlock
    | held a ha hother hn hlock =>
      exact .held a ((holds_set hsame a).trans ha)
        (fun u hu => hother u ((holds_set hsame u).symm.trans hu)) hn hlock
  loaded {u v} hu := by
    obtain ⟨-, hstage⟩ | ⟨-, hu⟩ := cases_set hu
    · exact hloaded v hstage.symm
    · exact h.loaded hu
  releasing {u v} hu := by
    obtain ⟨-, hstage⟩ | ⟨-, hu⟩ := cases_set hu
    · exact hreleasing v hstage.symm
    · exact h.releasing hu

theorem Released.acquire {v : UInt32} (h : Released s n) (hstage : s.stages t = .loaded v)
    (hlock : s.lock = v &&& lockMask) :
    Released { s.set t .holding with lock := v ||| lockSet } n := by
  have hv := h.loaded hstage
  rw [and_lockMask_eq hv] at hlock
  subst hlock
  cases h.word with
  | held a ha hother hn hword => omega
  | free hfree hn hword =>
    refine ⟨.held t ?_ ?_ (by omega) ?_, ?_, ?_⟩
    · rw [set_stages_self]
      rfl
    · intro u hu
      by_contra hut
      rw [set_stages_of_ne hut, hfree u] at hu
      cases hu
    · rw [toNat_or_lockSet hv, hword]
    · intro u w hu
      obtain ⟨-, hw⟩ | ⟨-, hu⟩ := cases_set hu
      · cases hw
      · exact h.loaded hu
    · intro u w hu
      obtain ⟨-, hw⟩ | ⟨-, hu⟩ := cases_set hu
      · cases hw
      · have hidle := hfree u
        rw [hu] at hidle
        cases hidle

omit [DecidableEq ι] in
theorem Released.idle_of_ne (h : Released s n) (hstage : (s.stages t).holds = true) {u : ι}
    (hu : u ≠ t) : (s.stages u).holds = false := by
  cases h.word with
  | free hfree hn hword => exact hfree u
  | held a ha hother hn hword =>
    by_contra hheld
    rw [Bool.not_eq_false] at hheld
    exact hu ((hother u hheld).trans (hother t hstage).symm)

theorem Released.free_of_release {v w : UInt32} (h : Released s n)
    (hstage : s.stages t = .releasing v) (u : ι) :
    (({ s.set t .idle with lock := w } : State ι).stages u).holds = false := by
  by_cases hut : u = t
  · rw [hut, set_stages_self]
    rfl
  · rw [set_stages_of_ne hut]
    refine h.idle_of_ne ?_ hut
    rw [hstage]
    rfl

theorem Released.release {v : UInt32} (h : Released s n) (hstage : s.stages t = .releasing v) :
    Released { s.set t .idle with lock := v + 1 - lockSet } (n + 1) := by
  have hholds : (s.stages t).holds = true := by
    rw [hstage]
    rfl
  have hv := h.releasing hstage
  cases h.word with
  | free hfree hn hword =>
    rw [hfree t] at hholds
    cases hholds
  | held a ha hother hn hword =>
    refine ⟨.free (h.free_of_release hstage) (by omega) ?_, ?_, ?_⟩
    · rw [UInt32.toNat_sub, UInt32.toNat_add, toNat_lockSet, hv, hword, UInt32.toNat_one]
      omega
    · intro u w hu
      obtain ⟨-, hw⟩ | ⟨-, hu⟩ := cases_set hu
      · cases hw
      · exact h.loaded hu
    · intro u w hu
      obtain ⟨-, hw⟩ | ⟨hut, hu⟩ := cases_set hu
      · cases hw
      · have hnot := h.idle_of_ne hholds hut
        rw [hu] at hnot
        cases hnot

theorem Released.step (h : Released s n) (hstep : s.step c = .ok (r, s')) :
    Released s' (n + [r].count .released) := by
  obtain ⟨t, act⟩ := c
  cases act with
  | tryGetLock =>
    obtain ⟨-, -, rfl, rfl⟩ | ⟨hstage, hclear, rfl, rfl⟩ | ⟨v, hstage, hlock, rfl, rfl⟩ |
      ⟨v, hstage, -, rfl, rfl⟩ := step_tryGetLock hstep
    · exact h
    · refine h.set (by rw [hstage]; rfl) ?_ ?_
      · rintro v ⟨⟩
        exact and_lockSet_eq_zero.mp hclear
      · rintro v ⟨⟩
    · exact h.acquire hstage hlock
    · refine h.set (by rw [hstage]; rfl) ?_ ?_
      · rintro w ⟨⟩
      · rintro w ⟨⟩
  | releaseLock =>
    obtain ⟨hstage, rfl, rfl⟩ | ⟨v, hstage, rfl, rfl⟩ := step_releaseLock hstep
    · refine h.set (by rw [hstage]; rfl) ?_ ?_
      · rintro v ⟨⟩
      · rintro v ⟨⟩
        rfl
    · exact h.release hstage

theorem Released.run (h : Released s n) (hrun : run State.step s cs = .ok (rs, s')) :
    Released s' (n + rs.count .released) := by
  induction cs generalizing s n rs with
  | nil =>
    cases hrun
    exact h
  | cons c cs ih =>
    obtain ⟨⟨r, s₁⟩, hs, hrest⟩ := bind_eq_ok.mp hrun
    obtain ⟨⟨rs', s₂⟩, hrun', hret⟩ := bind_eq_ok.mp hrest
    cases hret
    have hrest' := ih (h.step hs) hrun'
    rwa [Nat.add_assoc, ← List.count_append, List.singleton_append] at hrest'

omit [DecidableEq ι] in
theorem Released.le (h : Released s n) : n ≤ 2 ^ 31 := by
  cases h.word with
  | free hfree hn hword => exact hn
  | held a ha hother hn hword => exact hn.le

theorem free_of_released (hrun : run State.step {} cs = .ok (rs, s))
    (hlast : rs.getLast? = some .released) (u : ι) : (s.stages u).holds = false := by
  obtain rfl | ⟨cs, c, rfl⟩ := cs.eq_nil_or_concat
  · cases hrun
    cases hlast
  · rw [List.concat_eq_append] at hrun
    obtain ⟨rs₁, s₁, rs₂, hcs, hc, rfl⟩ := run_append.mp hrun
    obtain ⟨⟨r, s₂⟩, hs, hret⟩ := bind_eq_ok.mp hc
    cases hret
    rw [List.getLast?_append, List.getLast?_singleton, Option.some_or] at hlast
    cases hlast
    have h := Released.initial.run hcs
    obtain ⟨t, act⟩ := c
    cases act with
    | tryGetLock =>
      obtain ⟨-, -, hr, -⟩ | ⟨-, -, hr, -⟩ | ⟨v, -, -, hr, -⟩ | ⟨v, -, -, hr, -⟩ :=
        step_tryGetLock hs
      all_goals cases hr
    | releaseLock =>
      obtain ⟨-, hr, -⟩ | ⟨v, hstage, -, rfl⟩ := step_releaseLock hs
      · cases hr
      · exact h.free_of_release hstage u

theorem completePairs_le (taken : Bool) (rs : List Reply) :
    completePairs taken rs ≤ rs.count .released := by
  induction rs generalizing taken with
  | nil => exact Nat.le_refl _
  | cons r rs ih =>
    have htaken := taken.toNat_le
    have hfalse := ih false
    have htrue := ih true
    have hsame := ih taken
    cases r with
    | running | failed | acquired => simpa [completePairs] using by assumption
    | released =>
      rw [completePairs, List.count_cons_self]
      omega

end Counting

section Survival

/-- After each release the flag is clear and a thread that nobody disturbs gets the lock, and a
reader between whose two tests locks were taken and released is told so. -/
structure Survives (cs : List (ι × Act)) : Prop where
  usable : ∀ {before rs s}, before <+: cs → run State.step {} before = .ok (rs, s) →
    rs.getLast? = some .released → s.testLockSet.1 = false ∧ ∀ t, s.stages t = .idle →
      ∃ s', run State.step s [(t, .tryGetLock), (t, .tryGetLock)] =
        .ok ([.running, .acquired], s')
  noticed : ∀ {before between rs rs' s s'}, before ++ between <+: cs →
    run State.step {} before = .ok (rs, s) → run State.step s between = .ok (rs', s') →
    0 < completePairs false rs' → completePairs false rs' < 2 ^ 31 →
    s'.testLockVersionChange s.testLockSet.2 = true

variable {s s' : State ι} {t : ι} {n : ℕ} {cs before : List (ι × Act)} {rs rs' : List Reply}

theorem run_tryGetLock (hclear : s.lock.toNat < 2 ^ 31) (hidle : s.stages t = .idle) :
    ∃ s', run State.step s [(t, .tryGetLock), (t, .tryGetLock)] =
      .ok ([.running, .acquired], s') := by
  have hload : s.step (t, .tryGetLock) = .ok (.running, s.set t (.loaded s.lock)) := by
    simp [State.step, State.tryGetLock, hidle, and_lockSet_eq_zero.mpr hclear]
  refine ⟨{ (s.set t (.loaded s.lock)).set t .holding with lock := s.lock ||| lockSet }, ?_⟩
  rw [run_cons hload]
  simp [run, State.step, State.tryGetLock, and_lockMask_eq hclear, bind, Except.bind, pure,
    Except.pure]

theorem count_released_le (hrun : run State.step {} cs = .ok (rs, s)) (hbefore : before <+: cs)
    (hrun' : run State.step {} before = .ok (rs', s')) :
    rs'.count .released ≤ rs.count .released := by
  obtain ⟨rest, rfl⟩ := hbefore
  obtain ⟨rs₁, s₁, rs₂, h₁, -, rfl⟩ := run_append.mp hrun
  cases hrun'.symm.trans h₁
  rw [List.count_append]
  exact Nat.le_add_right _ _

omit [DecidableEq ι] in
theorem Released.lock_eq (h : Released s n) : s.lock.toNat = n ∨ s.lock.toNat = n + 2 ^ 31 := by
  cases h.word with
  | free hfree hn hword => exact .inl hword
  | held a ha hother hn hword => exact .inr hword

theorem survives_of_lt (hrun : run State.step {} cs = .ok (rs, s))
    (hlt : rs.count .released < 2 ^ 31) : Survives cs where
  usable {before rs' s'} hbefore hrun' hlast := by
    have hle := count_released_le hrun hbefore hrun'
    have hfree := free_of_released hrun' hlast
    cases (Released.initial.run hrun').word with
    | held a ha hother hn hword =>
      rw [hfree a] at ha
      cases ha
    | free hfree hn hword =>
      have hclear : s'.lock.toNat < 2 ^ 31 := by omega
      refine ⟨?_, fun t hidle => run_tryGetLock hclear hidle⟩
      simp [State.testLockSet, and_lockSet_eq_zero.mpr hclear]
  noticed {before between rs₁ rs₂ s₁ s₂} hbefore h₁ h₂ hpos hpairs := by
    have hcount : (rs₁ ++ rs₂).count .released ≤ rs.count .released :=
      count_released_le hrun hbefore (run_append.mpr ⟨rs₁, s₁, rs₂, h₁, h₂, rfl⟩)
    rw [List.count_append] at hcount
    have hle := completePairs_le false rs₂
    have hold := Released.initial.run h₁
    have hold' := hold.lock_eq
    have hnew := (hold.run h₂).lock_eq
    rw [State.testLockVersionChange, bne_iff_ne]
    intro heq
    have hlock : s₁.lock.toNat = s₂.lock.toNat := congrArg UInt32.toNat heq
    omega

theorem not_survives_of_eq (hrun : run State.step {} cs = .ok (rs, s))
    (hcount : rs.count .released = 2 ^ 31) : ¬ Survives cs := by
  intro hsurvives
  have hmem : Reply.released ∈ rs.reverse := by
    rw [List.mem_reverse, ← List.count_pos_iff, hcount]
    exact Nat.two_pow_pos 31
  obtain ⟨after, upto, hsplit, hnone⟩ := List.eq_append_cons_of_mem hmem
  have hrs : rs = (upto.reverse ++ [.released]) ++ after.reverse := by
    rw [← List.reverse_reverse rs, hsplit]
    simp
  have hlast : (upto.reverse ++ [Reply.released]).count .released = 2 ^ 31 := by
    have hafter : after.reverse.count .released = 0 := by
      rwa [List.count_eq_zero, List.mem_reverse]
    have hsum := congrArg (List.count .released) hrs
    rw [List.count_append, hafter, hcount] at hsum
    exact hsum.symm
  obtain ⟨s₁, htake⟩ := run_take hrun (upto.reverse ++ [Reply.released]).length
  rw [hrs, List.take_left] at htake
  obtain ⟨hclear, -⟩ := hsurvives.usable (List.take_prefix _ cs) htake (by simp)
  cases (Released.initial.run htake).word with
  | held a ha hother hn hword => omega
  | free hfree hn hword =>
    rw [hlast, Nat.zero_add] at hword
    rw [State.testLockSet, bne_eq_false_iff_eq, and_lockSet_eq_zero] at hclear
    omega

/-- The lock survives exactly the runs with fewer than `2 ^ 31` releases. -/
theorem survives_iff (hrun : run State.step {} cs = .ok (rs, s)) :
    Survives cs ↔ rs.count .released < 2 ^ 31 := by
  refine ⟨fun hsurvives => ?_, survives_of_lt hrun⟩
  have hle := (Released.initial.run hrun).le
  rw [Nat.zero_add] at hle
  exact hle.lt_of_ne fun hcount => not_survives_of_eq hrun hcount hsurvives

theorem survives_two_threads : Survives
    [(true, .tryGetLock), (true, .tryGetLock), (false, .tryGetLock), (true, .releaseLock),
      (true, .releaseLock), (false, .tryGetLock), (false, .tryGetLock), (false, .releaseLock)] :=
  (survives_iff (rfl : run State.step {} _ = .ok ([.running, .acquired, .failed, .running,
    .released, .running, .acquired, .running], _))).mpr (by decide)

def lockAndRelease (n : ℕ) : List (Unit × Act) :=
  (List.replicate n [((), .tryGetLock), ((), .tryGetLock), ((), .releaseLock),
    ((), .releaseLock)]).flatten

theorem run_pair {lock : UInt32} (hlock : lock.toNat < 2 ^ 31) :
    run State.step { lock := lock } (lockAndRelease 1) =
      .ok ([.running, .acquired, .running, .released], { lock := lock + 1 }) := by
  have hword : (lock ||| lockSet) + 1 - lockSet = lock + 1 := by
    rw [← UInt32.toNat_inj, UInt32.toNat_sub, UInt32.toNat_add, UInt32.toNat_add, toNat_lockSet,
      toNat_or_lockSet hlock, UInt32.toNat_one]
    omega
  simp [lockAndRelease, run, State.step, State.tryGetLock, State.releaseLock, State.set,
    and_lockSet_eq_zero.mpr hlock, and_lockMask_eq hlock, hword, bind, Except.bind, pure,
    Except.pure]

theorem run_lockAndRelease (hn : n ≤ 2 ^ 31) :
    ∃ rs, run State.step {} (lockAndRelease n) = .ok (rs, { lock := UInt32.ofNat n }) ∧
      rs.count .released = n := by
  induction n with
  | zero => exact ⟨[], rfl, rfl⟩
  | succ n ih =>
    obtain ⟨rs, hrun, hcount⟩ := ih (by omega)
    have hlock : (UInt32.ofNat n).toNat < 2 ^ 31 := by
      rw [UInt32.toNat_ofNat']
      omega
    have hsplit : lockAndRelease (n + 1) = lockAndRelease n ++ lockAndRelease 1 := by
      simp [lockAndRelease, List.replicate_succ']
    refine ⟨rs ++ [.running, .acquired, .running, .released], ?_, ?_⟩
    · rw [hsplit, UInt32.ofNat_add]
      exact run_append.mpr ⟨rs, _, _, hrun, run_pair hlock, rfl⟩
    · rw [List.count_append, hcount]
      rfl

theorem not_survives_lockAndRelease : ¬ Survives (lockAndRelease (2 ^ 31)) := by
  obtain ⟨rs, hrun, hcount⟩ := run_lockAndRelease (Nat.le_refl (2 ^ 31))
  exact not_survives_of_eq hrun hcount

end Survival

end VersionLock

end LearnedIndexFramework.Alexol
