import Mathlib.Algebra.Order.BigOperators.Group.Finset
import Mathlib.Data.Fintype.BigOperators
import LearnedIndexFramework.Alexol.VersionLock

/-! The lock of the model nodes of `competitor/alexol`: a count of readers and the flag of one
writer in one word, used by any threads, one atomic step of one thread at a time. -/

namespace LearnedIndexFramework.Alexol.ModelLock

open Lib Function

inductive Stage
  | idle
  | gettingRead (oldValue : UInt32)
  | tryingRead (oldValue : UInt32)
  | gettingWrite (oldValue : UInt32)
  | tryingWrite (oldValue : UInt32)
  | reading
  | promoting (oldValue : UInt32)
  /-- The flag is set by `promote_from_read_to_write`, its own read lock is still counted. -/
  | promoted
  | draining
  | writing
  deriving DecidableEq

inductive Call
  | getReadLock
  | tryGetReadLock
  | releaseReadLock
  | getWriteLock
  | tryGetWriteLock
  | promoteFromReadToWrite
  | releaseWriteLock
  deriving DecidableEq

/-- Start a call, or go on with it; with the value of `is_obsolete_` if the step reads it. -/
inductive Act
  | start (call : Call) (isObsolete : Bool)
  | go (isObsolete : Bool)
  deriving DecidableEq

abbrev Move := Option Bool × Stage × UInt32

section Thread

variable (lock : UInt32) (isObsolete : Bool)

def test (refused : Stage) (exchange : UInt32 → Stage) : Move :=
  if lock &&& lockSet ≠ 0 ∨ isObsolete then (some false, refused, lock)
  else (none, exchange (lock &&& lockMask), lock)

def Stage.start : Stage → Call → Except Unit Move
  | .idle, .getReadLock => .ok (test lock isObsolete .idle .gettingRead)
  | .idle, .tryGetReadLock => .ok (test lock isObsolete .idle .tryingRead)
  | .idle, .getWriteLock => .ok (test lock isObsolete .idle .gettingWrite)
  | .idle, .tryGetWriteLock => .ok (test lock isObsolete .idle .tryingWrite)
  | .reading, .promoteFromReadToWrite => .ok (test lock isObsolete .reading .promoting)
  | .reading, .releaseReadLock => .ok (none, .idle, lock - 1)
  | .writing, .releaseWriteLock => .ok (none, .idle, 0)
  | _, _ => .error ()

def Stage.go : Stage → Except Unit Move
  | .gettingRead oldValue =>
    if lock = oldValue then .ok (some true, .reading, (oldValue &&& lockMask) + 1 &&& lockMask)
    else .ok (test lock isObsolete .idle .gettingRead)
  | .tryingRead oldValue =>
    if lock = oldValue then .ok (some true, .reading, (oldValue &&& lockMask) + 1 &&& lockMask)
    else .ok (some false, .idle, lock)
  | .gettingWrite oldValue =>
    if lock = oldValue then .ok (none, .draining, oldValue ||| lockSet)
    else .ok (test lock isObsolete .idle .gettingWrite)
  | .tryingWrite oldValue =>
    if lock = oldValue then .ok (none, .draining, oldValue ||| lockSet)
    else .ok (some false, .idle, lock)
  | .promoting oldValue =>
    if lock = oldValue then .ok (none, .promoted, oldValue ||| lockSet)
    else .ok (test lock isObsolete .reading .promoting)
  | .promoted => .ok (none, .draining, lock - 1)
  | .draining =>
    if lock &&& lockMask ≠ 0 then .ok (none, .draining, lock) else .ok (some true, .writing, lock)
  | _ => .error ()

def Stage.act (stage : Stage) : Act → Except Unit Move
  | .start call isObsolete => stage.start lock isObsolete call
  | .go isObsolete => stage.go lock isObsolete

end Thread

structure State (ι : Type) where
  lock : UInt32 := 0
  stages : ι → Stage := fun _ => .idle

variable {ι : Type} [DecidableEq ι]

/-- One atomic step of a thread with what its call returns, or an error when its stage does not
allow the step. -/
def State.step (s : State ι) : ι × Act → Except Unit (Option Bool × State ι)
  | (t, act) => do
    let (returned, stage, lock) ← (s.stages t).act s.lock act
    return (returned, { lock, stages := update s.stages t stage })

def Stage.reads : Stage → Bool
  | .reading | .promoting _ | .promoted => true
  | _ => false

def Stage.flags : Stage → Bool
  | .promoted | .draining | .writing => true
  | _ => false

def Stage.expected : Stage → Option UInt32
  | .gettingRead oldValue | .tryingRead oldValue | .gettingWrite oldValue
  | .tryingWrite oldValue | .promoting oldValue => some oldValue
  | _ => none

def Stage.Sound (stage : Stage) : Prop := ∀ w ∈ stage.expected, w.toNat < 2 ^ 31

inductive Effect (lock : UInt32) (a : Stage) : Stage → UInt32 → Prop
  | none {b : Stage} : b.reads = a.reads → b.flags = a.flags → b ≠ .writing → b.Sound →
      Effect lock a b lock
  | read {b : Stage} {lock' : UInt32} : lock.toNat < 2 ^ 31 → a.reads = false →
      a.flags = false → b.reads = true → b.flags = false → b ≠ .writing → b.Sound →
      lock'.toNat = (lock.toNat + 1) % 2 ^ 31 → Effect lock a b lock'
  | flag {b : Stage} {lock' : UInt32} : lock.toNat < 2 ^ 31 → a.flags = false →
      b.reads = a.reads → b.flags = true → b ≠ .writing → b.Sound →
      lock'.toNat = lock.toNat + 2 ^ 31 → Effect lock a b lock'
  | leave {b : Stage} : a.reads = true → b.reads = false → b.flags = a.flags → b ≠ .writing →
      b.Sound → Effect lock a b (lock - 1)
  | enter : a = .draining → lock.toNat % 2 ^ 31 = 0 → Effect lock a .writing lock
  | release : a = .writing → Effect lock a .idle 0

section Effects

variable {lock lock' : UInt32} {isObsolete : Bool} {a b : Stage} {returned : Option Bool}

theorem Stage.sound_of_none (h : a.expected = none) : a.Sound := by
  simp [Stage.Sound, h]

theorem Stage.sound_of_some {w : UInt32} (h : a.expected = some w) (hw : w.toNat < 2 ^ 31) :
    a.Sound := by
  simpa [Stage.Sound, h] using hw

theorem effect_test {refused : Stage} {exchange : UInt32 → Stage}
    (hmove : test lock isObsolete refused exchange = (returned, b, lock'))
    (hrefused : refused.reads = a.reads ∧ refused.flags = a.flags ∧ refused ≠ .writing ∧
      refused.expected = none)
    (hexchange : ∀ w, (exchange w).reads = a.reads ∧ (exchange w).flags = a.flags ∧
      exchange w ≠ .writing ∧ (exchange w).expected = some w) :
    Effect lock a b lock' := by
  rw [test] at hmove
  split at hmove
  · cases hmove
    obtain ⟨hreads, hflags, hwriting, hnone⟩ := hrefused
    exact .none hreads hflags hwriting (Stage.sound_of_none hnone)
  · cases hmove
    obtain ⟨hreads, hflags, hwriting, hsome⟩ := hexchange (lock &&& lockMask)
    refine .none hreads hflags hwriting (Stage.sound_of_some hsome ?_)
    rw [toNat_and_lockMask]
    exact Nat.mod_lt _ (Nat.two_pow_pos 31)

theorem effect_read (hlock : lock.toNat < 2 ^ 31) (hreads : a.reads = false)
    (hflags : a.flags = false) :
    Effect lock a .reading ((lock &&& lockMask) + 1 &&& lockMask) := by
  refine .read hlock hreads hflags rfl rfl (by decide) (Stage.sound_of_none rfl) ?_
  rw [toNat_and_lockMask, UInt32.toNat_add, and_lockMask_eq hlock, UInt32.toNat_one]
  omega

theorem effect_flag (hlock : lock.toNat < 2 ^ 31) (hflags : a.flags = false)
    (hreads : b.reads = a.reads) (hset : b.flags = true) (hwriting : b ≠ .writing)
    (hnone : b.expected = none) : Effect lock a b (lock ||| lockSet) :=
  .flag hlock hflags hreads hset hwriting (Stage.sound_of_none hnone) (toNat_or_lockSet hlock)

theorem effect_start {call : Call}
    (hmove : a.start lock isObsolete call = .ok (returned, b, lock')) :
    Effect lock a b lock' := by
  unfold Stage.start at hmove
  split at hmove
  case h_6 =>
    cases hmove
    exact .leave rfl rfl rfl (by decide) (Stage.sound_of_none rfl)
  case h_7 =>
    cases hmove
    exact .release rfl
  case h_8 => cases hmove
  all_goals
    exact effect_test (Except.ok.inj hmove) ⟨rfl, rfl, by decide, rfl⟩
      fun w => ⟨rfl, rfl, by rintro ⟨⟩, rfl⟩

theorem effect_go (hsound : a.Sound) (hmove : a.go lock isObsolete = .ok (returned, b, lock')) :
    Effect lock a b lock' := by
  cases a with
  | idle | reading | writing => cases hmove
  | gettingRead oldValue =>
    have hold : oldValue.toNat < 2 ^ 31 := hsound oldValue rfl
    change ite _ _ _ = _ at hmove
    split at hmove
    · next heq =>
      cases hmove
      subst heq
      exact effect_read hold rfl rfl
    · exact effect_test (Except.ok.inj hmove) ⟨rfl, rfl, by decide, rfl⟩
        fun w => ⟨rfl, rfl, by rintro ⟨⟩, rfl⟩
  | tryingRead oldValue =>
    have hold : oldValue.toNat < 2 ^ 31 := hsound oldValue rfl
    change ite _ _ _ = _ at hmove
    split at hmove
    · next heq =>
      cases hmove
      subst heq
      exact effect_read hold rfl rfl
    · cases hmove
      exact .none rfl rfl (by decide) (Stage.sound_of_none rfl)
  | gettingWrite oldValue =>
    have hold : oldValue.toNat < 2 ^ 31 := hsound oldValue rfl
    change ite _ _ _ = _ at hmove
    split at hmove
    · next heq =>
      cases hmove
      subst heq
      exact effect_flag hold rfl rfl rfl (by decide) rfl
    · exact effect_test (Except.ok.inj hmove) ⟨rfl, rfl, by decide, rfl⟩
        fun w => ⟨rfl, rfl, by rintro ⟨⟩, rfl⟩
  | tryingWrite oldValue =>
    have hold : oldValue.toNat < 2 ^ 31 := hsound oldValue rfl
    change ite _ _ _ = _ at hmove
    split at hmove
    · next heq =>
      cases hmove
      subst heq
      exact effect_flag hold rfl rfl rfl (by decide) rfl
    · cases hmove
      exact .none rfl rfl (by decide) (Stage.sound_of_none rfl)
  | promoting oldValue =>
    have hold : oldValue.toNat < 2 ^ 31 := hsound oldValue rfl
    change ite _ _ _ = _ at hmove
    split at hmove
    · next heq =>
      cases hmove
      subst heq
      exact effect_flag hold rfl rfl rfl (by decide) rfl
    · exact effect_test (Except.ok.inj hmove) ⟨rfl, rfl, by decide, rfl⟩
        fun w => ⟨rfl, rfl, by rintro ⟨⟩, rfl⟩
  | promoted =>
    cases hmove
    exact .leave rfl rfl rfl (by decide) (Stage.sound_of_none rfl)
  | draining =>
    change ite _ _ _ = _ at hmove
    split at hmove
    · cases hmove
      exact .none rfl rfl (by decide) (Stage.sound_of_none rfl)
    · next hzero =>
      cases hmove
      refine .enter rfl ?_
      rw [← toNat_and_lockMask, not_not.mp hzero, UInt32.toNat_zero]

end Effects

section Counting

variable [Fintype ι] {s s' : State ι} {t u : ι}

def State.readers (s : State ι) : ℕ := ∑ t, (s.stages t).reads.toNat

def State.flags (s : State ι) : ℕ := ∑ t, (s.stages t).flags.toNat

structure State.Counted (s : State ι) : Prop where
  word : s.lock.toNat = 2 ^ 31 * s.flags + s.readers
  one_flag : s.flags ≤ 1
  drained : ∀ t, s.stages t = .writing → s.readers = 0
  sound : ∀ t, (s.stages t).Sound

theorem sum_update_add (f : Stage → Bool) (stages : ι → Stage) (t : ι) (stage : Stage) :
    ∑ u, (f (update stages t stage u)).toNat + (f (stages t)).toNat =
      ∑ u, (f (stages u)).toNat + (f stage).toNat := by
  have hrest : ∑ u ∈ Finset.univ.erase t, (f (update stages t stage u)).toNat =
      ∑ u ∈ Finset.univ.erase t, (f (stages u)).toNat := by
    refine Finset.sum_congr rfl fun u hu => ?_
    rw [update_of_ne (Finset.ne_of_mem_erase hu)]
  rw [← Finset.add_sum_erase _ _ (Finset.mem_univ t), update_self, hrest,
    ← Finset.add_sum_erase _ (fun u => (f (stages u)).toNat) (Finset.mem_univ t)]
  omega

theorem State.readers_update (s : State ι) (t : ι) (stage : Stage) (lock : UInt32) :
    State.readers { lock, stages := update s.stages t stage } + (s.stages t).reads.toNat =
      s.readers + stage.reads.toNat :=
  sum_update_add Stage.reads s.stages t stage

theorem State.flags_update (s : State ι) (t : ι) (stage : Stage) (lock : UInt32) :
    State.flags { lock, stages := update s.stages t stage } + (s.stages t).flags.toNat =
      s.flags + stage.flags.toNat :=
  sum_update_add Stage.flags s.stages t stage

omit [DecidableEq ι] in
theorem State.readers_lt (hcard : Fintype.card ι < 2 ^ 31) (s : State ι) :
    s.readers < 2 ^ 31 := by
  refine Nat.lt_of_le_of_lt ?_ hcard
  have hle := Finset.sum_le_card_nsmul Finset.univ (fun t => (s.stages t).reads.toNat) 1
    fun t _ => Bool.toNat_le _
  simpa [State.readers] using hle

omit [DecidableEq ι] in
theorem State.reads_le (s : State ι) (t : ι) : (s.stages t).reads.toNat ≤ s.readers :=
  Finset.single_le_sum (f := fun t => (s.stages t).reads.toNat) (fun _ _ => Nat.zero_le _)
    (Finset.mem_univ t)

omit [DecidableEq ι] in
theorem State.flags_le (s : State ι) (t : ι) : (s.stages t).flags.toNat ≤ s.flags :=
  Finset.single_le_sum (f := fun t => (s.stages t).flags.toNat) (fun _ _ => Nat.zero_le _)
    (Finset.mem_univ t)

omit [DecidableEq ι] in
theorem readers_initial : ({} : State ι).readers = 0 := Finset.sum_eq_zero fun _ _ => rfl

omit [DecidableEq ι] in
theorem flags_initial : ({} : State ι).flags = 0 := Finset.sum_eq_zero fun _ _ => rfl

omit [DecidableEq ι] in
theorem State.Counted.initial : ({} : State ι).Counted where
  word := by
    rw [flags_initial, readers_initial]
    rfl
  one_flag := flags_initial.trans_le (Nat.zero_le 1)
  drained t h := by cases h
  sound _ := Stage.sound_of_none rfl

variable {stage : Stage} {lock : UInt32}

theorem State.Counted.sound_update (h : s.Counted) (hstage : stage.Sound) (u : ι) :
    (update s.stages t stage u).Sound := by
  by_cases hu : u = t
  · rwa [hu, update_self]
  · rw [update_of_ne hu]
    exact h.sound u

theorem State.Counted.drained_update (h : s.Counted) (hstage : stage ≠ .writing)
    (hreaders : State.readers { lock, stages := update s.stages t stage } ≤ s.readers)
    (u : ι) (hu : update s.stages t stage u = .writing) :
    State.readers { lock, stages := update s.stages t stage } = 0 := by
  by_cases hut : u = t
  · rw [hut, update_self] at hu
    exact absurd hu hstage
  · rw [update_of_ne hut] at hu
    exact Nat.eq_zero_of_le_zero (hreaders.trans_eq (h.drained u hu))

theorem State.Counted.effect (hcard : Fintype.card ι < 2 ^ 31) (h : s.Counted)
    (heffect : Effect s.lock (s.stages t) stage lock) :
    State.Counted { lock, stages := update s.stages t stage } := by
  have hword := h.word
  have hone := h.one_flag
  have hreaders := s.readers_update t stage lock
  have hflags := s.flags_update t stage lock
  have hlt := s.readers_lt hcard
  have hlt' := State.readers_lt hcard { lock, stages := update s.stages t stage }
  have hflag := s.flags_le t
  cases heffect with
  | none hsame hsame' hwriting hsound =>
    rw [hsame] at hreaders
    rw [hsame'] at hflags
    refine ⟨?_, by omega, h.drained_update hwriting (by omega), h.sound_update hsound⟩
    change s.lock.toNat = _
    omega
  | read hclear hout hunset hin hunset' hwriting hsound hlock =>
    rw [hout, hin, Bool.toNat_true, Bool.toNat_false] at hreaders
    rw [hunset, hunset'] at hflags
    refine ⟨?_, by omega, fun u hu => ?_, h.sound_update hsound⟩
    · change lock.toNat = _
      omega
    · -- the word has no flag, so nobody writes
      change update s.stages t stage u = .writing at hu
      have hut : u ≠ t := by
        rintro rfl
        exact hwriting (by rwa [update_self] at hu)
      have hwriter := s.flags_le u
      rw [update_of_ne hut] at hu
      rw [hu, Stage.flags, Bool.toNat_true] at hwriter
      omega
  | flag hclear hunset hsame hset hwriting hsound hlock =>
    rw [hsame] at hreaders
    rw [hunset, hset, Bool.toNat_true, Bool.toNat_false] at hflags
    refine ⟨?_, by omega, h.drained_update hwriting (by omega), h.sound_update hsound⟩
    change lock.toNat = _
    omega
  | leave hin hout hsame hwriting hsound =>
    rw [hout, hin, Bool.toNat_true, Bool.toNat_false] at hreaders
    rw [hsame] at hflags
    refine ⟨?_, by omega, h.drained_update hwriting (by omega), h.sound_update hsound⟩
    change (s.lock - 1).toNat = _
    have hlock := s.lock.toNat_lt
    rw [UInt32.toNat_sub, UInt32.toNat_one]
    omega
  | enter hdraining hzero =>
    rw [hdraining] at hreaders hflags hflag
    change _ + 0 = _ + 0 at hreaders
    change _ + 1 = _ + 1 at hflags
    change 1 ≤ _ at hflag
    refine ⟨?_, by omega, fun u _ => ?_, h.sound_update (Stage.sound_of_none rfl)⟩
    · change s.lock.toNat = _
      omega
    · omega
  | release hwas =>
    have hdrained := h.drained t hwas
    rw [hwas] at hreaders hflags
    change _ + 0 = _ + 0 at hreaders
    change _ + 1 = _ + 0 at hflags
    refine ⟨?_, by omega, h.drained_update (by decide) (by omega),
      h.sound_update (Stage.sound_of_none rfl)⟩
    change 0 = _
    omega

variable {returned : Option Bool} {c : ι × Act} {cs : List (ι × Act)} {rs : List (Option Bool)}

theorem State.Counted.step (hcard : Fintype.card ι < 2 ^ 31) (h : s.Counted)
    (hstep : s.step c = .ok (returned, s')) : s'.Counted := by
  obtain ⟨t, act⟩ := c
  obtain ⟨⟨returned, stage, lock⟩, hact, hret⟩ := bind_eq_ok.mp hstep
  cases hret
  refine h.effect hcard ?_
  cases act with
  | start call isObsolete => exact effect_start hact
  | go isObsolete => exact effect_go (h.sound t) hact

theorem State.Counted.run (hcard : Fintype.card ι < 2 ^ 31)
    (hrun : run State.step ({} : State ι) cs = .ok (rs, s)) : s.Counted :=
  run_invariant (fun _ _ _ _ h (_ : True) hstep => h.step hcard hstep) .initial
    (.of_forall (fun _ _ => trivial) _ _) hrun

/-- While a thread writes, no other thread writes or has a read lock. -/
theorem writing_excludes (hcard : Fintype.card ι < 2 ^ 31)
    (hrun : run State.step ({} : State ι) cs = .ok (rs, s)) (ht : s.stages t = .writing)
    (hne : u ≠ t) : s.stages u ≠ .writing ∧ (s.stages u).reads = false := by
  have h := State.Counted.run hcard hrun
  constructor
  · intro hu
    have htwo := Finset.add_le_sum (f := fun t => (s.stages t).flags.toNat)
      (fun _ _ => Nat.zero_le _) (Finset.mem_univ u) (Finset.mem_univ t) hne
    rw [ht, hu, Stage.flags, Bool.toNat_true] at htwo
    have hone := h.one_flag
    rw [State.flags] at hone
    omega
  · have hreads := s.reads_le u
    rw [h.drained t ht] at hreads
    cases hu : (s.stages u).reads with
    | false => rfl
    | true =>
      rw [hu] at hreads
      cases hreads

def promotion : List (Option Bool × Act) :=
  [(none, .start .getReadLock false), (none, .go false), (some true, .start .getReadLock false),
    (some true, .go false), (none, .start .promoteFromReadToWrite false), (none, .go false),
    (some false, .start .getWriteLock false), (none, .go false), (none, .go false),
    (some true, .start .releaseReadLock false), (none, .go false)]

theorem writing_excludes_promotion : ∃ rs s, run State.step {} promotion = .ok (rs, s) ∧
    s.stages none = .writing ∧ s.stages (some true) ≠ .writing ∧
      (s.stages (some true)).reads = false := by
  have hend : ∃ rs s, run State.step {} promotion = .ok (rs, s) ∧ s.stages none = .writing :=
    ⟨_, _, rfl, rfl⟩
  obtain ⟨rs, s, hrun, ht⟩ := hend
  exact ⟨rs, s, hrun, ht, writing_excludes (by decide) hrun ht (by decide)⟩

end Counting

end LearnedIndexFramework.Alexol.ModelLock
